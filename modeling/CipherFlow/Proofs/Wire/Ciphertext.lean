import CipherFlow.Proofs.Scheme.Decryption
import CipherFlow.Proofs.Scheme.Sizes
import CipherFlow.Proofs.Wire.Fields
import CipherFlow.Wire.Ciphertext

/-!
# Ciphertexts and their bytes

An element is read from exactly the bytes that are written for it. Ring
elements come first: residues are read channel by channel, and what is read is
reduced. The header names the level, so its identifier must tell levels apart.
The main statement compares decoding with encoding: they are inverse to each
other, and decoding refuses everything that encoding a well-formed element
does not give.

This main statement is `decodeHandle_eq_ok_iff`.

How the proof goes. `Accepts` says of a reader that it takes exactly what is written
for values with a property, and it is composed as readers are
(`CipherFlow.Proofs.Wire.Fields`). Headers and ring elements have their lemmas
(`readHeader_accepts`, `readPoly_accepts`); the number of components in the header
decides what follows it (`readBody`). Distinct identifiers are needed to get back
the level that was written (`Context.DistinctIds.named`).
-/

namespace CipherFlow

open CipherFlow.Ring (Basis Poly IsChannel)

/-! ## Ring elements -/

/-- A reduced element has a channel for each prime. -/
theorem Ring.Poly.isOver_iff {B : Basis} {p : Poly} :
    p.IsOver B ↔ p.basis = B ∧ List.Forall₂ (IsChannel B.degree) B.primes p.channels := by
  constructor
  · intro h
    refine ⟨h.basis, List.forall₂_iff_get.mpr ⟨?_, fun i hq hc => ?_⟩⟩
    · rw [h.reduced.length_channels, h.basis]
    · obtain ⟨own, eq⟩ := h.channel (List.getElem?_eq_getElem hq)
      rw [List.getElem?_eq_getElem hc] at eq
      rw [List.get_eq_getElem, List.get_eq_getElem, Option.some.inj eq]
      exact own
  · rintro ⟨rfl, all⟩
    obtain ⟨length, each⟩ := List.forall₂_iff_get.mp all
    refine Poly.isOver_of_channel length.symm fun i q c hq hc => ?_
    obtain ⟨hi, rfl⟩ := List.getElem?_eq_some_iff.mp hq
    obtain ⟨hi', rfl⟩ := List.getElem?_eq_some_iff.mp hc
    exact each i hi hi'

theorem Ring.Poly.channelProblem_eq_none {degree : Nat} {channels : List (List Nat)}
    {primes : List Nat} (h : List.Forall₂ (IsChannel degree) primes channels) :
    Poly.channelProblem degree channels primes = none := by
  induction h with
  | nil => rfl
  | @cons q c primes channels hc _ ih =>
    have small : c.find? (q ≤ ·) = none := by
      refine List.find?_eq_none.mpr fun r hr => ?_
      rw [decide_eq_true_eq]
      exact Nat.not_le.mpr (hc.lt r hr)
    rw [Poly.channelProblem, if_neg (not_not.mpr hc.length), small]
    exact ih

/-- Channels that fit a basis make up an element. -/
theorem Ring.Poly.ofChannels_ok {B : Basis} {channels : List (List Nat)}
    (h : List.Forall₂ (IsChannel B.degree) B.primes channels) :
    Poly.ofChannels B channels = .ok ⟨B, channels⟩ := by
  rw [Poly.ofChannels, if_neg (not_not.mpr h.length_eq.symm), channelProblem_eq_none h]

namespace Wire

theorem readResidue_accepts {q : Nat} (h : q < wordSize) :
    Accepts (readResidue q) wordBytes (· < q) := by
  intro bytes r rest
  rw [readResidue, readWord_accepts.run_bind]
  constructor
  · rintro ⟨value, mid, -, rfl, eq⟩
    obtain ⟨lt, eq⟩ := run_check_eq_ok.mp eq
    obtain ⟨rfl, rfl⟩ := run_pure_eq_ok.mp eq
    exact ⟨Nat.not_le.mp lt, rfl⟩
  · rintro ⟨lt, rfl⟩
    exact ⟨r, rest, lt.trans h, rfl, run_check_eq_ok.mpr
      ⟨Nat.not_le.mpr lt, run_pure_eq_ok.mpr ⟨rfl, rfl⟩⟩⟩

variable {B : Basis}

/-- A ring element is read from its residues, and only reduced ones are. -/
theorem readPoly_accepts (h : ∀ q ∈ B.primes, q < wordSize) :
    Accepts (readPoly B) polyBytes (·.IsOver B) := by
  have channel : ∀ q ∈ B.primes, Accepts (readMany (readResidue q) B.degree)
      (·.flatMap wordBytes) (IsChannel B.degree q) := fun q hq =>
    (readMany_accepts (readResidue_accepts (h q hq)) B.degree).congr fun c =>
      ⟨fun hc => ⟨hc.1, hc.2⟩, fun hc => ⟨hc.length, hc.lt⟩⟩
  intro bytes p rest
  refine (mapM_accepts channel).run_bind.trans ?_
  constructor
  · rintro ⟨channels, mid, all, rfl, eq⟩
    rw [Ring.Poly.ofChannels_ok all] at eq
    obtain ⟨rfl, rfl⟩ := run_pure_eq_ok.mp eq
    exact ⟨Ring.Poly.isOver_iff.mpr ⟨rfl, all⟩, rfl⟩
  · rintro ⟨isOver, rfl⟩
    obtain ⟨basis, all⟩ := Ring.Poly.isOver_iff.mp isOver
    refine ⟨p.channels, rest, all, rfl, ?_⟩
    rw [Ring.Poly.ofChannels_ok all, ← basis]
    rfl

end Wire

/-! ## Headers -/

/-- The identifiers of the levels are pairwise distinct. -/
def Context.DistinctIds (ctx : Context) : Prop :=
  ((List.range ctx.primes.length).map fun l => ctx.idOf (ctx.basisAt l)).Nodup

instance (ctx : Context) : Decidable ctx.DistinctIds :=
  inferInstanceAs (Decidable (List.Nodup _))

variable {ctx : Context}

/-- A level that is found by an identifier has it. -/
theorem Context.of_levelOf {id : LevelId} {level : Nat} (h : ctx.levelOf id = some level) :
    level < ctx.primes.length ∧ ctx.idOf (ctx.basisAt level) = id := by
  rw [Context.levelOf, List.find?_range_eq_some] at h
  simp only [decide_eq_true_eq, List.mem_range] at h
  exact ⟨h.2.1, h.1⟩

/-- A level is the one that is found by its identifier. -/
def Context.Named (ctx : Context) (level : Nat) : Prop :=
  ctx.levelOf (ctx.idOf (ctx.basisAt level)) = some level

theorem Context.Named.lt {level : Nat} (h : ctx.Named level) : level < ctx.primes.length :=
  (of_levelOf h).1

/-- Where identifiers are distinct, each level is found by its own. -/
theorem Context.DistinctIds.named (distinct : ctx.DistinctIds) {level : Nat}
    (lt : level < ctx.primes.length) : ctx.Named level := by
  rw [Context.Named, Context.levelOf, List.find?_range_eq_some]
  simp only [decide_eq_true_eq, List.mem_range, Bool.not_eq_true', decide_eq_false_iff_not]
  refine ⟨trivial, lt, fun l hl same => ?_⟩
  have inj := List.inj_on_of_nodup_map distinct
  have eq : l = level := inj (List.mem_range.mpr (hl.trans lt)) (List.mem_range.mpr lt) same
  exact absurd eq hl.ne

namespace Wire

/-- The bytes before the residues. -/
def headerBytes (ctx : Context) (level count : Nat) (scale : Binary64) : Bytes :=
  levelIdBytes (ctx.idOf (ctx.basisAt level)) ++ natBytes 1 0 ++ wordBytes count ++
    wordBytes ctx.degree ++ wordBytes (level + 1) ++ floatBytes scale

theorem headerBytes_append (level count : Nat) (scale : Binary64) (rest : Bytes) :
    headerBytes ctx level count scale ++ rest =
      levelIdBytes (ctx.idOf (ctx.basisAt level)) ++ (natBytes 1 0 ++ (wordBytes count ++
        (wordBytes ctx.degree ++ (wordBytes (level + 1) ++ (floatBytes scale ++ rest))))) := by
  simp only [headerBytes, List.append_assoc]

theorem length_headerBytes (level count : Nat) (scale : Binary64) :
    (headerBytes ctx level count scale).length = headerSize := by
  simp [headerBytes, levelIdBytes, LevelId.words, floatBytes, length_wordBytes, length_natBytes,
    headerSize]

/-- What a header says. -/
structure IsHeader (ctx : Context) (level count : Nat) (scale : Binary64) : Prop where
  named : ctx.Named level
  count_ne : count ≠ 1
  count_le : count ≤ maxComponents
  scale : Binary64.isPositive scale = true

/-- What is read as a header is one. -/
theorem of_readHeader {bytes rest : Bytes} {level count : Nat} {scale : Binary64}
    (h : (readHeader ctx).run bytes = .ok ((level, count, scale), rest)) :
    IsHeader ctx level count scale ∧ bytes = headerBytes ctx level count scale ++ rest := by
  obtain ⟨id, b₁, -, rfl, afterId⟩ := readLevelId_accepts.run_bind.mp h
  split at afterId
  · exact nomatch afterId
  rename_i found hfound
  obtain ⟨-, rfl⟩ := Context.of_levelOf hfound
  obtain ⟨flag, b₂, -, rfl, afterFlag⟩ := readByte_accepts.run_bind.mp afterId
  obtain ⟨flagOk, afterFlag⟩ := run_check_eq_ok.mp afterFlag
  obtain ⟨n, b₃, -, rfl, afterCount⟩ := readWord_accepts.run_bind.mp afterFlag
  obtain ⟨countOk, afterCount⟩ := run_check_eq_ok.mp afterCount
  obtain ⟨degree, b₄, -, rfl, afterDegree⟩ := readWord_accepts.run_bind.mp afterCount
  obtain ⟨degreeOk, afterDegree⟩ := run_check_eq_ok.mp afterDegree
  obtain ⟨chain, b₅, -, rfl, afterChain⟩ := readWord_accepts.run_bind.mp afterDegree
  obtain ⟨chainOk, afterChain⟩ := run_check_eq_ok.mp afterChain
  obtain ⟨x, b₆, -, rfl, afterScale⟩ := readFloat_accepts.run_bind.mp afterChain
  obtain ⟨scaleOk, afterScale⟩ := run_check_eq_ok.mp afterScale
  obtain ⟨eq, rfl⟩ := run_pure_eq_ok.mp afterScale
  obtain ⟨rfl, rfl, rfl⟩ : found = level ∧ n = count ∧ x = scale := by simpa using eq
  obtain rfl := not_not.mp flagOk
  obtain rfl := not_not.mp degreeOk
  obtain rfl := not_not.mp chainOk
  obtain ⟨countNe, countLe⟩ := not_or.mp countOk
  refine ⟨⟨hfound, countNe, Nat.not_lt.mp countLe, by simpa using scaleOk⟩, ?_⟩
  exact (headerBytes_append _ _ _ _).symm

theorem readHeader_accepts (sized : ctx.Sized) :
    Accepts (readHeader ctx) (fun h => headerBytes ctx h.1 h.2.1 h.2.2)
      fun h => IsHeader ctx h.1 h.2.1 h.2.2 := by
  intro bytes ⟨level, count, scale⟩ rest
  constructor
  · exact of_readHeader
  · rintro ⟨⟨named, countNe, countLe, positive⟩, rfl⟩
    have lt := named.lt
    have degreeSmall : ctx.degree < wordSize := sized.params.degree.trans_lt (by decide)
    have levels : ctx.params.levels ≤ 32 := sized.params.levels
    have levelSmall : level + 1 < wordSize := by
      rw [sized.length_primes] at lt
      exact lt_of_le_of_lt (show level + 1 ≤ 33 by omega) (by decide)
    refine readLevelId_accepts.run_bind.mpr
      ⟨_, _, trivial, headerBytes_append level count scale rest, ?_⟩
    rw [show ctx.levelOf _ = some level from named]
    refine readByte_accepts.run_bind.mpr ⟨0, _, by decide, rfl, ?_⟩
    refine run_check_eq_ok.mpr ⟨not_not.mpr rfl, ?_⟩
    refine readWord_accepts.run_bind.mpr ⟨count, _, countLe.trans_lt (by decide), rfl, ?_⟩
    refine run_check_eq_ok.mpr ⟨not_or.mpr ⟨countNe, Nat.not_lt.mpr countLe⟩, ?_⟩
    refine readWord_accepts.run_bind.mpr ⟨ctx.degree, _, degreeSmall, rfl, ?_⟩
    refine run_check_eq_ok.mpr ⟨not_not.mpr rfl, ?_⟩
    refine readWord_accepts.run_bind.mpr ⟨level + 1, _, levelSmall, rfl, ?_⟩
    refine run_check_eq_ok.mpr ⟨not_not.mpr rfl, ?_⟩
    refine readFloat_accepts.run_bind.mpr ⟨scale, rest, trivial, rfl, ?_⟩
    exact run_check_eq_ok.mpr ⟨by simpa using positive, run_pure_eq_ok.mpr ⟨rfl, rfl⟩⟩

end Wire

/-! ## Elements -/

/-- An element that can be sent: its level is one of the chain, its scale is
finite and positive, and it is known to be zero or has two or three components
over the basis of its level. -/
structure Handle.WellFormed (ctx : Context) (packing : Packing) (h : Handle) : Prop where
  packing : h.packing = packing
  level_lt : h.level < ctx.primes.length
  scale : Binary64.isPositive h.scale = true
  size : ∀ ct, h.state = .encrypted ct → ct.size = 2 ∨ ct.size = 3
  components : ∀ ct, h.state = .encrypted ct → ∀ p ∈ ct.components, p.IsOver (ctx.basisAt h.level)

/-- No components stand for zero, and one component stands for nothing. -/
theorem Handle.WellFormed.length_components {packing : Packing} {h : Handle}
    (wellFormed : h.WellFormed ctx packing) :
    (Wire.components h).length ≠ 1 ∧ (Wire.components h).length ≤ Wire.maxComponents := by
  obtain ⟨packing, state⟩ := h
  cases state with
  | zero scale level => exact ⟨Nat.zero_ne_one, Nat.zero_le _⟩
  | encrypted ct =>
    have size : ct.components.length = 2 ∨ ct.components.length = 3 := wellFormed.size ct rfl
    show ct.components.length ≠ 1 ∧ ct.components.length ≤ 3
    omega

theorem Handle.WellFormed.over_components {packing : Packing} {h : Handle}
    (wellFormed : h.WellFormed ctx packing) :
    ∀ p ∈ Wire.components h, p.IsOver (ctx.basisAt h.level) := by
  obtain ⟨packing, state⟩ := h
  cases state with
  | zero scale level => exact fun p hp => (nomatch hp)
  | encrypted ct => exact wellFormed.components ct rfl

namespace Wire

/-- Reads the components of an element that is not known to be zero. -/
def readEncrypted (ctx : Context) (packing : Packing) (level count : Nat) (scale : Binary64) :
    Reader Handle := do
  let components ← readMany (readPoly (ctx.basisAt level)) count
  return .ofCiphertext ⟨components, scale, level⟩ packing

theorem readEncrypted_run {packing : Packing} {level count : Nat} {scale : Binary64}
    {body rest : Bytes} {h : Handle} (sized : ctx.Sized) :
    (readEncrypted ctx packing level count scale).run body = .ok (h, rest) ↔
      ∃ cs, (cs.length = count ∧ ∀ p ∈ cs, p.IsOver (ctx.basisAt level)) ∧
        h = .ofCiphertext ⟨cs, scale, level⟩ packing ∧ body = cs.flatMap polyBytes ++ rest := by
  have small : ∀ q ∈ (ctx.basisAt level).primes, q < wordSize := fun q hq =>
    (sized.prime_lt q (List.mem_of_mem_take hq)).trans (by decide)
  refine (readMany_accepts (readPoly_accepts small) count).run_bind.trans ?_
  simp only [run_pure_eq_ok]
  constructor
  · rintro ⟨cs, _, hcs, rfl, rfl, rfl⟩
    exact ⟨cs, hcs, rfl, rfl⟩
  · rintro ⟨cs, hcs, rfl, rfl⟩
    exact ⟨cs, rest, hcs, rfl, rfl, rfl⟩

/-- The header of an element and its components. -/
def writtenBytes (ctx : Context) (h : Handle) : Bytes :=
  headerBytes ctx h.level (components h).length h.scale ++ (components h).flatMap polyBytes

theorem handleBytes_ok {h : Handle} (lt : h.level < ctx.primes.length) :
    handleBytes ctx h = .ok (writtenBytes ctx h) := by
  have id : ctx.levelId h.level = .ok (ctx.idOf (ctx.basisAt h.level)) := by
    rw [Context.levelId, Context.basis_ok lt]
    rfl
  rw [handleBytes, id]
  rfl

/-- Reads what follows a header, which depends on the number of components. -/
def readBody (ctx : Context) (packing : Packing) (level count : Nat) (scale : Binary64) :
    Reader Handle :=
  if count = 0 then return .zero packing scale level
  else readEncrypted ctx packing level count scale

/-- An element is a header and what follows it. -/
theorem readHandle_run {packing : Packing} {bytes rest : Bytes} {h : Handle} :
    (readHandle ctx packing).run bytes = .ok (h, rest) ↔
      ∃ level count scale body,
        (readHeader ctx).run bytes = .ok ((level, count, scale), body) ∧
        (readBody ctx packing level count scale).run body = .ok (h, rest) := by
  refine run_bind_eq_ok.trans ?_
  constructor
  · rintro ⟨⟨level, count, scale⟩, body, header, read⟩
    refine ⟨level, count, scale, body, header, ?_⟩
    simp only [Context.basis_ok (of_readHeader header).1.named.lt] at read
    exact read
  · rintro ⟨level, count, scale, body, header, read⟩
    refine ⟨⟨level, count, scale⟩, body, header, ?_⟩
    simp only [Context.basis_ok (of_readHeader header).1.named.lt]
    exact read

/-- What is read as an element is well-formed, and its level is found by its
identifier. -/
theorem of_readHandle {packing : Packing} {bytes rest : Bytes} {h : Handle} (sized : ctx.Sized)
    (read : (readHandle ctx packing).run bytes = .ok (h, rest)) :
    (h.WellFormed ctx packing ∧ ctx.Named h.level) ∧ bytes = writtenBytes ctx h ++ rest := by
  obtain ⟨level, count, scale, body, header, inner⟩ := readHandle_run.mp read
  obtain ⟨⟨named, countNe, countLe, positive⟩, rfl⟩ := of_readHeader header
  have lt := named.lt
  by_cases zero : count = 0
  · subst zero
    obtain ⟨rfl, rfl⟩ := run_pure_eq_ok.mp inner
    refine ⟨⟨⟨rfl, lt, positive, fun ct hct => (nomatch hct), fun ct hct => (nomatch hct)⟩,
      named⟩, ?_⟩
    exact congrArg (· ++ body) (List.append_nil _).symm
  · rw [readBody, if_neg zero] at inner
    obtain ⟨cs, ⟨rfl, isOver⟩, rfl, rfl⟩ := (readEncrypted_run sized).mp inner
    refine ⟨⟨⟨rfl, lt, positive, fun ct hct => ?_, fun ct hct => ?_⟩, named⟩,
      (List.append_assoc _ _ _).symm⟩
    · obtain rfl := CipherState.encrypted.inj hct
      show cs.length = 2 ∨ cs.length = 3
      have le : cs.length ≤ 3 := countLe
      omega
    · obtain rfl := CipherState.encrypted.inj hct
      exact isOver

/-- An element is read from exactly the bytes that are written for a
well-formed one, if its level is found by its identifier. -/
theorem readHandle_accepts_named (sized : ctx.Sized) (packing : Packing) :
    Accepts (readHandle ctx packing) (writtenBytes ctx)
      fun h => h.WellFormed ctx packing ∧ ctx.Named h.level := by
  intro bytes h rest
  constructor
  · exact of_readHandle sized
  · rintro ⟨⟨wellFormed, named⟩, rfl⟩
    obtain ⟨countNe, countLe⟩ := wellFormed.length_components
    refine readHandle_run.mpr ⟨h.level, (components h).length, h.scale,
      (components h).flatMap polyBytes ++ rest,
      (readHeader_accepts sized _ (_, _, _) _).mpr
        ⟨⟨named, countNe, countLe, wellFormed.scale⟩, List.append_assoc _ _ _⟩, ?_⟩
    obtain rfl := wellFormed.packing
    match h, wellFormed with
    | ⟨_, .zero _ _⟩, _ => rfl
    | ⟨packing, .encrypted ct⟩, wellFormed =>
      have some : (components ⟨packing, .encrypted ct⟩).length ≠ 0 := by
        have size : ct.components.length = 2 ∨ ct.components.length = 3 := wellFormed.size ct rfl
        show ct.components.length ≠ 0
        omega
      rw [readBody, if_neg some]
      exact (readEncrypted_run sized).mpr
        ⟨ct.components, ⟨rfl, wellFormed.components ct rfl⟩, rfl, rfl⟩

theorem readHandle_accepts (sized : ctx.Sized) (distinct : ctx.DistinctIds) (packing : Packing) :
    Accepts (readHandle ctx packing) (writtenBytes ctx) (Handle.WellFormed ctx packing) :=
  (readHandle_accepts_named sized packing).congr fun _ =>
    and_iff_left_of_imp fun wellFormed => distinct.named wellFormed.level_lt

/-! ## Whole elements -/

theorem length_wordsBytes (ns : List Nat) : (ns.flatMap wordBytes).length = 8 * ns.length := by
  induction ns with
  | nil => rfl
  | cons n ns ih =>
    rw [List.flatMap_cons, List.length_append, length_wordBytes, ih, List.length_cons]
    omega

/-- Eight bytes for each residue of a reduced element. -/
theorem length_polyBytes {B : Basis} {p : Poly} (h : p.IsOver B) :
    (polyBytes p).length = 8 * (p.channelCount * p.degree) := by
  obtain ⟨rfl, all⟩ := Ring.Poly.isOver_iff.mp h
  have each : ∀ c ∈ p.channels, (c.flatMap wordBytes).length = 8 * p.basis.degree := by
    intro c hc
    obtain ⟨i, hi, rfl⟩ := List.getElem_of_mem hc
    have length : p.channels[i].length = p.basis.degree :=
      (all.get (all.length_eq ▸ hi) hi).length
    rw [length_wordsBytes, length]
  rw [polyBytes, List.length_flatMap, List.map_congr_left each, List.map_const', List.sum_replicate,
    smul_eq_mul, Nat.mul_left_comm]
  rfl

theorem length_writtenBytes {packing : Packing} {h : Handle}
    (wellFormed : h.WellFormed ctx packing) :
    (writtenBytes ctx h).length = handleSize h := by
  have residues : ∀ {ps : List Poly}, (∀ p ∈ ps, p.IsOver (ctx.basisAt h.level)) →
      (ps.flatMap polyBytes).length =
        8 * ps.foldr (fun p n => p.channelCount * p.degree + n) 0 := by
    intro ps isOver
    induction ps with
    | nil => rfl
    | cons p ps ih =>
      obtain ⟨first, others⟩ := List.forall_mem_cons.mp isOver
      rw [List.flatMap_cons, List.length_append, length_polyBytes first, ih others,
        List.foldr_cons, Nat.mul_add]
  rw [writtenBytes, List.length_append, length_headerBytes, residues wellFormed.over_components,
    handleSize]

/-- Decoding takes one element and leaves nothing. -/
theorem decodeHandle_eq_ok {packing : Packing} {bytes : Bytes} {h : Handle} :
    decodeHandle ctx packing bytes = .ok h ↔
      (readHandle ctx packing).run bytes = .ok (h, []) := by
  constructor
  · intro ok
    obtain ⟨⟨h', rest⟩, read, ok⟩ := exists_of_bind_eq_ok ok
    cases rest with
    | nil =>
      obtain rfl := Except.ok.inj ok
      exact read
    | cons b rest => exact nomatch ok
  · intro read
    rw [decodeHandle, read]
    rfl

/-- In a context that tells its levels apart, decoding and encoding are
inverse to each other: what is decoded is well-formed and is encoded again as
the bytes it came from, and all well-formed elements are encoded, in the
stated size, and decoded again as themselves. -/
theorem decodeHandle_eq_ok_iff [Primitives] {params : Params} {ctx : Context}
    (ofParams : Context.ofParams params = .ok ctx) (distinct : ctx.DistinctIds)
    (packing : Packing) :
    (∀ bytes h, decodeHandle ctx packing bytes = .ok h ↔
      h.WellFormed ctx packing ∧ handleBytes ctx h = .ok bytes) ∧
    ∀ h, h.WellFormed ctx packing →
      ∃ bytes, handleBytes ctx h = .ok bytes ∧ bytes.length = handleSize h := by
  have accepts := readHandle_accepts (Context.sized_of_ofParams ofParams) distinct packing
  constructor
  · intro bytes h
    rw [decodeHandle_eq_ok, accepts bytes h [], List.append_nil]
    refine and_congr_right fun wellFormed => ?_
    rw [handleBytes_ok wellFormed.level_lt]
    exact ⟨fun eq => eq ▸ rfl, fun eq => (Except.ok.inj eq).symm⟩
  · intro h wellFormed
    exact ⟨_, handleBytes_ok wellFormed.level_lt, length_writtenBytes wellFormed⟩

/-- An element of two components at the top of the tiny chain. -/
def tinyHandle : Handle :=
  .ofCiphertext ⟨[.ofInts (Context.tiny.basisAt 1) [11, -7, 100, 3],
    .ofInts (Context.tiny.basisAt 1) [5, 0, -1, 8]], .ofFloat 16, 1⟩ .complex

theorem wellFormed_tinyHandle : tinyHandle.WellFormed Context.tiny .complex where
  packing := rfl
  level_lt := Nat.one_lt_two
  scale := by decide +kernel
  size ct h := by
    obtain rfl := CipherState.encrypted.inj h
    exact .inl rfl
  components ct h := by
    obtain rfl := CipherState.encrypted.inj h
    exact List.forall_mem_cons.mpr ⟨Context.sound_tiny.isOver_ofInts 1 rfl,
      List.forall_mem_singleton.mpr (Context.sound_tiny.isOver_ofInts 1 rfl)⟩

attribute [local instance] Primitives.coarse

/-- The tiny chain tells its levels apart, so its elements survive the trip. -/
theorem decodeHandle_tinyHandle :
    Context.ofParams Context.tiny.params = .ok Context.tiny ∧ Context.tiny.DistinctIds ∧
      tinyHandle.WellFormed Context.tiny .complex ∧
      ∃ bytes, handleBytes Context.tiny tinyHandle = .ok bytes ∧
        bytes.length = handleSize tinyHandle ∧
        decodeHandle Context.tiny .complex bytes = .ok tinyHandle := by
  have distinct : Context.tiny.DistinctIds := by decide +kernel
  obtain ⟨decode, encode⟩ := decodeHandle_eq_ok_iff Context.ofParams_tiny distinct .complex
  obtain ⟨bytes, written, size⟩ := encode tinyHandle wellFormed_tinyHandle
  exact ⟨Context.ofParams_tiny, distinct, wellFormed_tinyHandle, bytes, written, size,
    (decode bytes tinyHandle).mpr ⟨wellFormed_tinyHandle, written⟩⟩

end Wire

end CipherFlow
