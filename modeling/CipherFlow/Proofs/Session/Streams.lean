import CipherFlow.Proofs.Session.Messages

/-!
# Streams of ciphertexts

Ciphertexts are sent one after the other, with nothing between them that tells
where one ends. The reader finds the ends by itself: it takes its bytes from the
front, and as long as they last, those that follow make no difference. So the
elements of a stream are read back in order, and a stream that is cut short
anywhere ends for lack of bytes and not in another way.

`readHandles_stream` is the statement for a list of elements: any suffix, and every
proper prefix.

How the proof goes. `Incremental` is closed under the steps that readers are made
of, and each reader up to the list of elements is incremental by its own definition.
A reader that takes all of some bytes cannot end on fewer of them in another way
than for lack of bytes, as it would then have left the rest (`Incremental.run_cut`).
-/

namespace CipherFlow.Wire

variable {α β γ : Type} {read : Reader α}

/-- Where a reader does not run out of bytes, more bytes change nothing: they
are left unread after a value, and an error stays what it is. -/
def Incremental (read : Reader α) : Prop :=
  ∀ bytes more : Bytes, read.run bytes = .error .endOfData ∨
    read.run (bytes ++ more) = (read.run bytes).map fun p => (p.1, p.2 ++ more)

/-- A reader that takes all of some bytes runs out of them before the end. -/
theorem Incremental.run_cut (h : Incremental read) {cut more : Bytes} {x : α}
    (whole : read.run (cut ++ more) = .ok (x, [])) (some : more ≠ []) :
    read.run cut = .error .endOfData := by
  rcases h cut more with ended | eq
  · exact ended
  · rw [whole] at eq
    cases first : read.run cut with
    | error e =>
      rw [first] at eq
      exact nomatch eq
    | ok p =>
      rw [first] at eq
      obtain ⟨-, rest⟩ := Prod.mk.inj (Except.ok.inj eq)
      exact absurd (List.append_eq_nil_iff.mp rest.symm).2 some

namespace Incremental

/-! ## Steps of readers -/

theorem pure (x : α) : Incremental (Pure.pure x) :=
  fun _ _ => .inr rfl

theorem throw (e : Error) : Incremental (MonadExcept.throw e : Reader α) :=
  fun _ _ => .inr rfl

theorem bind (h : Incremental read) {f : α → Reader β} (next : ∀ x, Incremental (f x)) :
    Incremental (read >>= f) := by
  intro bytes more
  rw [StateT.run_bind, StateT.run_bind]
  rcases h bytes more with ended | eq
  · exact .inl (by rw [ended]; rfl)
  · rw [eq]
    cases read.run bytes with
    | error e => exact .inr rfl
    | ok p => exact next p.1 p.2 more

theorem ite {c : Prop} [Decidable c] {other : Reader α} (yes : Incremental read)
    (no : Incremental other) : Incremental (if c then read else other) := by
  split
  · exact yes
  · exact no

/-- A refusal before a reader. -/
theorem check {c : Prop} [Decidable c] {e : Error} {k : PUnit → Reader α}
    (h : Incremental (k ⟨⟩)) :
    Incremental (if c then MonadExcept.throw e >>= k else k ⟨⟩) :=
  ite (fun _ _ => .inr rfl) h

/-- A step that computes. -/
theorem lift (x : Except Error α) : Incremental (StateT.lift x) := by
  intro bytes more
  cases x with
  | ok x => exact .inr rfl
  | error e => exact .inr rfl

theorem many (h : Incremental read) (count : Nat) : Incremental (readMany read count) := by
  induction count with
  | zero => exact pure []
  | succ count ih => exact h.bind fun x => ih.bind fun xs => pure (x :: xs)

theorem mapM {reader : γ → Reader α} (h : ∀ c, Incremental (reader c)) (entries : List γ) :
    Incremental (entries.mapM reader) := by
  induction entries with
  | nil => exact pure []
  | cons c entries ih =>
    rw [List.mapM_cons]
    exact (h c).bind fun x => ih.bind fun xs => pure (x :: xs)

/-! ## Fields -/

theorem takeBytes (count : Nat) : Incremental (takeBytes count) := by
  induction count with
  | zero => exact pure []
  | succ count ih =>
    intro bytes more
    cases bytes with
    | nil => exact .inl rfl
    | cons b bytes => exact (ih.bind fun taken => pure (b :: taken)) bytes more

theorem readNat (width : Nat) : Incremental (readNat width) :=
  (takeBytes width).bind fun bytes => pure (natOfBytes bytes)

theorem readFloat : Incremental readFloat :=
  (readNat 8).bind fun bits => pure (Binary64.mk bits.toUInt64)

theorem readLevelId : Incremental readLevelId :=
  (readNat 8).bind fun _ => (readNat 8).bind fun _ => (readNat 8).bind fun _ =>
    (readNat 8).bind fun _ => pure _

theorem readResidue (q : Nat) : Incremental (readResidue q) :=
  (readNat 8).bind fun value => check (pure value)

theorem readPoly (basis : Ring.Basis) : Incremental (readPoly basis) :=
  (mapM (fun q => (readResidue q).many basis.degree) basis.primes).bind fun _ => lift _

/-! ## Elements -/

variable (ctx : Context) (packing : Packing)

theorem readHeader : Incremental (readHeader ctx) := by
  refine readLevelId.bind fun id => ?_
  split
  · exact throw _
  · refine (readNat 1).bind fun flag => check ?_
    refine (readNat 8).bind fun count => check ?_
    refine (readNat 8).bind fun degree => check ?_
    refine (readNat 8).bind fun chain => check ?_
    exact readFloat.bind fun scale => check (pure _)

theorem readHandle : Incremental (readHandle ctx packing) := by
  refine (readHeader ctx).bind fun ⟨level, count, scale⟩ => ?_
  refine ite (pure _) ?_
  exact (lift _).bind fun basis => ((readPoly basis).many count).bind fun _ => pure _

theorem readHandles (count : Nat) : Incremental (readHandles ctx packing count) :=
  (readHandle ctx packing).many count

end Incremental

end CipherFlow.Wire

namespace CipherFlow.Session

/-- Well-formed elements written one after the other are read back in order,
whatever follows them, and nothing of what follows is touched. Where the bytes
end before the last element does, the reader runs out of them. -/
theorem readHandles_stream [Primitives] {params : Params} {ctx : Context}
    (ofParams : Context.ofParams params = .ok ctx) (distinct : ctx.DistinctIds)
    {packing : Packing} {hs : List Handle} (wellFormed : ∀ h ∈ hs, h.WellFormed ctx packing) :
    ∃ parts, hs.mapM (Wire.handleBytes ctx) = .ok parts ∧
      Wire.handlesBytes ctx hs = .ok parts.flatten ∧
      (∀ rest, (liftM (Wire.readHandles ctx packing hs.length) : Reader (List Handle)).run
        (parts.flatten ++ rest) = .ok (hs, rest)) ∧
      ∀ cut, cut <+: parts.flatten → cut ≠ parts.flatten →
        (liftM (Wire.readHandles ctx packing hs.length) : Reader (List Handle)).run cut =
          .error (.wire .endOfData) := by
  have levels : ∀ h ∈ hs, h.level < ctx.primes.length := fun h hh => (wellFormed h hh).level_lt
  have read (rest : Wire.Bytes) :=
    (readHandles_accepts (Context.sized_of_ofParams ofParams) packing hs.length
      (hs.flatMap (Wire.writtenBytes ctx) ++ rest) hs rest).mpr
      ⟨⟨rfl, named_of_distinct distinct wellFormed⟩, rfl⟩
  refine ⟨_, Wire.mapM_handleBytes_ok levels, Wire.handlesBytes_ok levels, read,
    fun cut prefixed short => ?_⟩
  obtain ⟨more, whole⟩ := prefixed
  have rest : more ≠ [] := by
    rintro rfl
    exact short ((List.append_nil cut).symm.trans whole)
  have all := lift_run.mp (read [])
  rw [List.append_nil, List.flatMap_def, ← whole] at all
  -- The reader of the session differs only in the name of its error.
  show ((Wire.readHandles ctx packing hs.length).run cut).mapError Error.wire = _
  rw [(Wire.Incremental.readHandles ctx packing hs.length).run_cut all rest]
  rfl

/-- A stream of a ciphertext and a known zero, which take different numbers of
bytes. -/
def tinyStream : List Handle :=
  [Wire.tinyHandle, .zero .complex (.ofFloat 16) 0]

theorem wellFormed_tinyStream : ∀ h ∈ tinyStream, h.WellFormed Context.tiny .complex :=
  List.forall_mem_cons.mpr ⟨Wire.wellFormed_tinyHandle, List.forall_mem_singleton.mpr
    { packing := rfl
      level_lt := Nat.two_pos
      scale := by decide +kernel
      size := fun _ h => nomatch h
      components := fun _ h => nomatch h }⟩

attribute [local instance] Primitives.coarse

theorem readHandles_stream_tiny :
    Context.ofParams Context.tiny.params = .ok Context.tiny ∧ Context.tiny.DistinctIds ∧
      (∀ h ∈ tinyStream, h.WellFormed Context.tiny .complex) ∧
      ∃ parts, tinyStream.mapM (Wire.handleBytes Context.tiny) = .ok parts ∧
        (liftM (Wire.readHandles Context.tiny .complex 2) : Reader (List Handle)).run
          (parts.flatten ++ [7]) = .ok (tinyStream, [7]) ∧
        (liftM (Wire.readHandles Context.tiny .complex 2) : Reader (List Handle)).run
          parts.flatten.dropLast = .error (.wire .endOfData) := by
  have distinct : Context.tiny.DistinctIds := by decide +kernel
  obtain ⟨parts, written, -, whole, cut⟩ :=
    readHandles_stream Context.ofParams_tiny distinct wellFormed_tinyStream
  refine ⟨Context.ofParams_tiny, distinct, wellFormed_tinyStream, parts, written, whole [7],
    cut _ (List.dropLast_prefix _) fun same => ?_⟩
  -- Only no bytes at all stay the same without the last of them.
  have empty : parts.flatten = [] := by
    have length := congrArg List.length same
    rw [List.length_dropLast] at length
    exact List.length_eq_zero_iff.mp (by omega)
  have read := whole []
  rw [empty] at read
  exact nomatch read

end CipherFlow.Session
