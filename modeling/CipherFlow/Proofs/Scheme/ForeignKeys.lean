import CipherFlow.Proofs.Scheme.Commands
import CipherFlow.Proofs.Wire.Keys

/-!
# Keys of other contexts

An evaluator asks little of its keys: that the first component of the public
key is over the primes of the context, and that the relinearisation key has as
many digits as there are primes. Keys of another ring degree get past it, and
relinearisation keys over other primes do. Such keys are found out by the
first operation of the top level that uses them, and only by this.

`Evaluator.ofKeys_isOver_iff` is the exact statement, and `ofKeys_foreign` has keys
that are accepted and of no use.

How the proof goes. The components of one key share a basis, however the key was
obtained (`PublicKey.Obtained.shares`, `RelinKey.Obtained.shares`). If this is not
the top basis, then dropping primes to the top level fails for want of a common
basis, and encrypting at this level, or multiplying, hands the failure on. The other
direction is the invariant of `CipherFlow.Proofs.Scheme.Commands`.
-/

namespace CipherFlow

open CipherFlow.Ring (Basis Poly)

variable {B b : Basis}

/-! ## Keys as they are got -/

/-- A reduced element over a valid basis. -/
structure Ring.Poly.Proper (p : Poly) : Prop where
  valid : p.basis.Valid
  reduced : p.Reduced

theorem Ring.Poly.Proper.isOver {p : Poly} (h : p.Proper) : p.IsOver p.basis :=
  ⟨rfl, h.reduced⟩

/-- A public key is put together from its components, or it is drawn. -/
inductive PublicKey.Obtained : PublicKey → Prop where
  | parts {b a : Poly} {k : PublicKey} : b.Proper → a.Proper → ofParts b a = .ok k → Obtained k
  | drawn {s : SecretKey} {deviation : Float} {c c' : Coins} {k : PublicKey} : s.poly.Proper →
      (generate s deviation).run c = .ok (k, c') → Obtained k

/-- A relinearisation key is put together from its digits, or it is drawn. -/
inductive RelinKey.Obtained : RelinKey → Prop where
  | parts {digits : List (Poly × Poly)} {k : RelinKey} :
      (∀ d ∈ digits, d.1.Proper ∧ d.2.Proper) → ofDigits digits = .ok k → Obtained k
  | drawn {s : SecretKey} {deviation : Float} {c c' : Coins} {k : RelinKey} : s.poly.Proper →
      (generate s deviation).run c = .ok (k, c') → Obtained k

/-- The components of a public key are over the same primes. Nothing is said
about their degrees. -/
theorem PublicKey.Obtained.shares {k : PublicKey} (h : k.Obtained) :
    k.b.Reduced ∧ k.a.Reduced ∧ k.a.basis.primes = k.b.basis.primes := by
  cases h with
  | parts properB properA accepted =>
    unfold ofParts at accepted
    split at accepted
    · rename_i same
      obtain rfl := Except.ok.inj accepted
      exact ⟨properB.reduced, properA.reduced, same.symm⟩
    · exact nomatch accepted
  | drawn proper drawn =>
    obtain ⟨a, e, ha, he, made⟩ := exists_of_generate proper.valid.pos proper.isOver drawn
    obtain ⟨key, eq, hides⟩ := ofSamples_ok proper.valid proper.isOver ha he
    obtain rfl := Except.ok.inj (eq.symm.trans made)
    obtain ⟨overB, overA⟩ := hides.isOver
    exact ⟨overB.reduced, overA.reduced, by rw [overA.basis, overB.basis]⟩

/-- The digits of a relinearisation key are over the same primes, as many as
there are digits. -/
theorem RelinKey.Obtained.shares {k : RelinKey} (h : k.Obtained) :
    ∃ primes : List Nat, k.digits.length = primes.length ∧ ∀ d ∈ k.digits,
      (d.1.Reduced ∧ d.1.basis.primes = primes) ∧ d.2.Reduced ∧ d.2.basis.primes = primes := by
  cases h with
  | @parts digits k proper accepted =>
    cases digits with
    | nil => exact nomatch accepted
    | cons first rest =>
      unfold ofDigits at accepted
      simp only at accepted
      split at accepted
      · exact nomatch accepted
      · rename_i length
        split at accepted
        · rename_i same
          obtain rfl := Except.ok.inj accepted
          rw [List.all_eq_true] at same
          refine ⟨first.1.basis.primes, not_not.mp length, fun d hd => ?_⟩
          have primes := same d hd
          simp only [Bool.and_eq_true, beq_iff_eq] at primes
          exact ⟨⟨(proper d hd).1.reduced, primes.1⟩, (proper d hd).2.reduced, primes.2⟩
        · exact nomatch accepted
  | @drawn s deviation c c' k proper drawn =>
    obtain ⟨samples, areSamples, made⟩ :=
      exists_of_generate proper.valid.pos proper.isOver drawn
    obtain ⟨key, eq, length, hides⟩ := ofSamples_ok proper.valid proper.isOver areSamples
    obtain rfl := Except.ok.inj (eq.symm.trans made)
    refine ⟨s.poly.basis.primes, length, fun d hd => ?_⟩
    obtain ⟨i, hi⟩ := List.mem_iff_getElem?.mp hd
    obtain ⟨overB, overA⟩ := (hides i d hi).isOver
    exact ⟨⟨overB.reduced, by rw [overB.basis]⟩, overA.reduced, by rw [overA.basis]⟩

/-! ## Leaving primes out -/

theorem Ring.Basis.eq_of_isInitialOf (initial : b.isInitialOf B = true)
    (length : B.primes.length ≤ b.primes.length) : B = b := by
  simp only [Basis.isInitialOf, Bool.and_eq_true, beq_iff_eq, List.isPrefixOf_iff_prefix] at initial
  obtain ⟨degree, primes⟩ := initial
  obtain ⟨n, ps⟩ := b
  obtain ⟨m, qs⟩ := B
  obtain rfl : n = m := degree
  obtain rfl : ps = qs := primes.eq_of_length_le length
  rfl

theorem Ring.isInitialOf_of_dropTo {p r : Poly} (h : p.dropTo b = .ok r) :
    b.isInitialOf p.basis = true := by
  unfold Poly.dropTo at h
  split at h
  · assumption
  · exact nomatch h

theorem Ring.eq_of_dropTo_error {p : Poly} {e : Ring.Error} (h : p.dropTo b = .error e) :
    e = .basisMismatch := by
  unfold Poly.dropTo at h
  split at h
  · exact nomatch h
  · exact (Except.error.inj h).symm

theorem PublicKey.isInitialOf_of_atBasis {k : PublicKey} {r : Poly × Poly}
    (h : k.atBasis b = .ok r) :
    b.isInitialOf k.b.basis = true ∧ b.isInitialOf k.a.basis = true := by
  obtain ⟨b', hb, h⟩ := exists_of_bind_eq_ok h
  obtain ⟨a', ha, -⟩ := exists_of_bind_eq_ok h
  exact ⟨Ring.isInitialOf_of_dropTo (eq_ok_of_mapError hb),
    Ring.isInitialOf_of_dropTo (eq_ok_of_mapError ha)⟩

theorem PublicKey.eq_of_atBasis_error {k : PublicKey} {e : Key.Error}
    (h : k.atBasis b = .error e) : e = .ring .basisMismatch := by
  have dropped : ∀ {p : Poly} {e : Key.Error},
      (p.dropTo b).mapError Key.Error.ring = .error e → e = .ring .basisMismatch := by
    intro p e h
    obtain ⟨e', failed, rfl⟩ := exists_of_mapError h
    rw [Ring.eq_of_dropTo_error failed]
  rcases of_bind_eq_error h with failed | ⟨b', -, h⟩
  · exact dropped failed
  · rcases of_bind_eq_error h with failed | ⟨a', -, h⟩
    · exact dropped failed
    · exact nomatch h

/-- The digits of a level are all over bases that start with it, or they
cannot be had. -/
theorem RelinKey.isInitialOf_or_mismatch {k : RelinKey}
    (enough : b.channelCount ≤ k.digits.length) :
    (∀ d ∈ k.digits.take b.channelCount,
        b.isInitialOf d.1.basis = true ∧ b.isInitialOf d.2.basis = true) ∨
      k.digitsAt b = .error (.ring .basisMismatch) := by
  have digits : k.digitsAt b =
      (k.digits.take b.channelCount).mapM fun d => PublicKey.atBasis ⟨d.1, d.2⟩ b :=
    if_neg (Nat.not_lt.mpr enough)
  rw [digits]
  cases run : (k.digits.take b.channelCount).mapM fun d => PublicKey.atBasis ⟨d.1, d.2⟩ b with
  | ok r =>
    refine .inl fun d hd => ?_
    obtain ⟨d', eq⟩ := exists_of_mem_mapM run d hd
    exact PublicKey.isInitialOf_of_atBasis eq
  | error e =>
    obtain ⟨d, -, failed⟩ := exists_of_mapM_eq_error run
    exact .inr (by rw [PublicKey.eq_of_atBasis_error failed])

/-! ## Operations at the top level -/

/-- Whether an operation has met elements of two bases. -/
def Scheme.Error.isMismatch : Scheme.Error → Bool
  | .ring .basisMismatch => true
  | .key (.ring .basisMismatch) => true
  | _ => false

/-- An answer about the operands is another error. -/
theorem Scheme.Error.isMismatch_of_isRefusal {e : Scheme.Error} (h : e.isRefusal = true) :
    e.isMismatch = false := by
  cases e <;> first | rfl | exact nomatch h

variable {ctx : Context} {ev : Evaluator}

/-- A message is not encrypted if the key cannot be had at its level. -/
theorem Operation.encryptPlain_mismatch (sound : ctx.Sound) (same : ev.context = ctx)
    {p : Plaintext} (hp : p.WellFormed ctx) {e : Key.Error}
    (foreign : ev.publicKey.atBasis (ctx.basisAt p.level) = .error e) (coins : Coins) :
    (encryptPlain p coins).perform ev = .error (.key e) := by
  obtain ⟨r, coins', -, eq⟩ := Plaintext.exists_encrypt sound ev.publicKey p coins
  have refused : p.encryptWith ctx ev.publicKey r = .error (.key e) := by
    rw [Plaintext.encryptWith, Context.basis_ok hp.level]
    show (ev.publicKey.atBasis (ctx.basisAt p.level)).mapError _ >>= _ = _
    rw [foreign]
    rfl
  rw [perform, same, eq, refused]
  rfl

/-- Two pairs are not multiplied if the digits cannot be had at their level. -/
theorem Evaluator.multiply_mismatch (valid : b.Valid) {a0 a1 b0 b1 : Poly} (ha0 : a0.IsOver b)
    (ha1 : a1.IsOver b) (hb0 : b0.IsOver b) (hb1 : b1.IsOver b) {σ τ : Binary64}
    (hscale : Scheme.scalesMatch σ τ = true) (level : Nat) {e : Key.Error}
    (foreign : ev.relinKey.digitsAt b = .error e) :
    ev.multiply ⟨[a0, a1], σ, level⟩ ⟨[b0, b1], τ, level⟩ = .error (.key e) := by
  obtain ⟨d0, d1, d, products, -, -, -, overD, -⟩ :=
    ev.multiply_pairs valid ha0 ha1 hb0 hb1 hscale level
  rw [products, relinearise, overD.basis, foreign]
  rfl

/-! ## Keys that are found out -/

/-- A public key over the primes of a basis that can be had over this basis is
over it. -/
theorem PublicKey.Obtained.isOver {k : PublicKey} (h : k.Obtained)
    (primes : k.basis.primes = B.primes) {r : Poly × Poly} (had : k.atBasis B = .ok r) :
    k.IsOver B := by
  obtain ⟨reducedB, reducedA, same⟩ := h.shares
  obtain ⟨initialB, initialA⟩ := isInitialOf_of_atBasis had
  have lengthB : k.b.basis.primes.length ≤ B.primes.length := (congrArg List.length primes).le
  have lengthA : k.a.basis.primes.length ≤ B.primes.length := same ▸ lengthB
  exact ⟨⟨Ring.Basis.eq_of_isInitialOf initialB lengthB, reducedB⟩,
    ⟨Ring.Basis.eq_of_isInitialOf initialA lengthA, reducedA⟩⟩

/-- A relinearisation key with a digit for each prime of a basis is over this
basis, or its digits cannot be had over it. -/
theorem RelinKey.Obtained.isOver_or_mismatch {k : RelinKey} (h : k.Obtained)
    (count : k.digits.length = B.primes.length) :
    k.IsOver B ∨ k.digitsAt B = .error (.ring .basisMismatch) := by
  refine (isInitialOf_or_mismatch count.ge).imp_left fun initial => ⟨count, fun d hd => ?_⟩
  obtain ⟨primes, length, each⟩ := h.shares
  obtain ⟨⟨reducedB, primesB⟩, reducedA, primesA⟩ := each d hd
  have all : k.digits.take B.channelCount = k.digits := List.take_of_length_le count.le
  obtain ⟨initialB, initialA⟩ := initial d (all.symm ▸ hd)
  have fewer : primes.length ≤ B.primes.length := (length.symm.trans count).le
  exact ⟨⟨Ring.Basis.eq_of_isInitialOf initialB (primesB ▸ fewer), reducedB⟩,
    ⟨Ring.Basis.eq_of_isInitialOf initialA (primesA ▸ fewer), reducedA⟩⟩

theorem Evaluator.ofKeys_inv {publicKey : PublicKey} {relinKey : RelinKey}
    (h : ofKeys ctx publicKey relinKey = .ok ev) :
    publicKey.basis.primes = ctx.primes ∧ relinKey.digits.length = ctx.primes.length ∧
      ev = ⟨ctx, publicKey, relinKey⟩ := by
  unfold ofKeys at h
  split at h
  · exact nomatch h
  · rename_i primes
    split at h
    · exact nomatch h
    · rename_i count
      exact ⟨not_not.mp primes, not_not.mp count, (Except.ok.inj h).symm⟩

/-- Keys that make an evaluator are over the top basis if and only if no
operation on well-formed operands, of whatever level, meets elements of two
bases. -/
theorem Evaluator.ofKeys_isOver_iff [Primitives] {params : Params}
    (hctx : Context.ofParams params = .ok ctx)
    {publicKey : PublicKey} (hpublic : publicKey.Obtained) {relinKey : RelinKey}
    (hrelin : relinKey.Obtained) (hev : ofKeys ctx publicKey relinKey = .ok ev) :
    publicKey.IsOver ctx.topBasis ∧ relinKey.IsOver ctx.topBasis ↔
      ∀ op : Operation Ciphertext Plaintext, op.Proper ctx →
        ∀ e, op.perform ev = .error e → e.isMismatch = false := by
  have sound := Context.sound_of_ofParams hctx
  obtain ⟨primes, count, rfl⟩ := ofKeys_inv hev
  constructor
  · rintro ⟨overPublic, overRelin⟩ op proper e failed
    have keys : IsOver ctx ⟨ctx, publicKey, relinKey⟩ := ⟨rfl, overPublic, overRelin⟩
    have replies := Operation.replies_perform sound (Context.sized_of_ofParams hctx) keys proper
    rw [failed] at replies
    exact Scheme.Error.isMismatch_of_isRefusal replies
  · intro never
    have top := sound.topLevel_lt
    have zero := (Ring.zero_ok (sound.valid_basisAt ctx.topLevel).pos).1
    constructor
    · -- A message at the top level is encrypted over all primes.
      have message : Plaintext.WellFormed ctx ⟨.zero (ctx.basisAt ctx.topLevel), .ofFloat 16,
        ctx.topLevel⟩ := ⟨top, zero⟩
      cases had : publicKey.atBasis ctx.topBasis with
      | ok r => exact hpublic.isOver primes had
      | error e =>
        obtain rfl := PublicKey.eq_of_atBasis_error had
        rw [← sound.basisAt_topLevel] at had
        exact nomatch never (.encryptPlain _ default) message _
          (Operation.encryptPlain_mismatch sound rfl message had _)
    · refine (hrelin.isOver_or_mismatch count).resolve_right fun foreign => ?_
      have scale : Scheme.scalesMatch (Binary64.ofFloat 16) (Binary64.ofFloat 16) = true := by
        decide +kernel
      have pair : Ciphertext.Proper ctx ⟨[.zero (ctx.basisAt ctx.topLevel),
          .zero (ctx.basisAt ctx.topLevel)], .ofFloat 16, ctx.topLevel⟩ :=
        ⟨Ciphertext.wellFormed_pair top zero zero _, List.cons_ne_nil _ _⟩
      rw [← sound.basisAt_topLevel] at foreign
      exact nomatch never (.multiply _ _) ⟨pair, pair⟩ _ (Evaluator.multiply_mismatch
        (sound.valid_basisAt ctx.topLevel) zero zero zero zero scale _ foreign)

namespace ForeignKeys

open Registers.Tiny (element evaluator isOver_element)

attribute [local instance] Primitives.coarse

/-- Keys over both primes. -/
theorem ofKeys_isOver_iff_own :
    evaluator.publicKey.Obtained ∧ evaluator.relinKey.Obtained ∧
      Evaluator.ofKeys Context.tiny evaluator.publicKey evaluator.relinKey = .ok evaluator ∧
      ∀ op : Operation Ciphertext Plaintext, op.Proper Context.tiny →
        ∀ e, op.perform evaluator = .error e → e.isMismatch = false := by
  have proper : element.Proper := ⟨Context.sound_tiny.valid, isOver_element.reduced⟩
  have overPublic : evaluator.publicKey.IsOver Context.tiny.topBasis :=
    ⟨isOver_element, isOver_element⟩
  have digits : ∀ d ∈ evaluator.relinKey.digits, d = (element, element) := by
    simp [evaluator]
  have overRelin : evaluator.relinKey.IsOver Context.tiny.topBasis :=
    ⟨rfl, fun d hd => digits d hd ▸ ⟨isOver_element, isOver_element⟩⟩
  have obtainedPublic : evaluator.publicKey.Obtained :=
    .parts proper proper (PublicKey.ofParts_ok overPublic)
  have obtainedRelin : evaluator.relinKey.Obtained :=
    .parts (fun d hd => digits d hd ▸ ⟨proper, proper⟩)
      (RelinKey.ofDigits_ok Context.sound_tiny.primes_ne_nil overRelin)
  have accepted := Evaluator.ofKeys_ok overPublic overRelin
  exact ⟨obtainedPublic, obtainedRelin, accepted,
    (Evaluator.ofKeys_isOver_iff Context.ofParams_tiny obtainedPublic obtainedRelin accepted).mp
      ⟨overPublic, overRelin⟩⟩

/-- The primes of the context at twice its degree. -/
def wider : Basis :=
  ⟨8, [457, 241]⟩

/-- Other primes, but as many. -/
def other : Basis :=
  ⟨4, [97, 113]⟩

/-- A public key over the wider ring. -/
def publicKey : PublicKey :=
  ⟨.zero wider, .zero wider⟩

/-- A relinearisation key over the other primes. -/
def relinKey : RelinKey :=
  ⟨[(.zero other, .zero other), (.zero other, .zero other)]⟩

/-- An element over both primes of the context. -/
def zero : Poly :=
  .zero Context.tiny.topBasis

/-- Both keys make an evaluator of a context that neither belongs to. Nothing
can be encrypted with it at the top level, and nothing multiplied. -/
theorem ofKeys_foreign :
    Context.ofParams Context.tiny.params = .ok Context.tiny ∧
      publicKey.Obtained ∧ relinKey.Obtained ∧
      Evaluator.ofKeys Context.tiny publicKey relinKey =
        .ok ⟨Context.tiny, publicKey, relinKey⟩ ∧
      ¬ publicKey.IsOver Context.tiny.topBasis ∧ ¬ relinKey.IsOver Context.tiny.topBasis ∧
      (∀ coins, (Operation.encryptPlain ⟨zero, .ofFloat 16, 1⟩ coins).perform
        ⟨Context.tiny, publicKey, relinKey⟩ = .error (.key (.ring .basisMismatch))) ∧
      Evaluator.multiply ⟨Context.tiny, publicKey, relinKey⟩ ⟨[zero, zero], .ofFloat 16, 1⟩
        ⟨[zero, zero], .ofFloat 16, 1⟩ = .error (.key (.ring .basisMismatch)) := by
  have madeWider : Basis.ofPrimes 8 [457, 241] = .ok wider := rfl
  have madeOther : Basis.ofPrimes 4 [97, 113] = .ok other := rfl
  have validWider := (Ring.Basis.valid_of_ofPrimes madeWider).2
  have validOther := (Ring.Basis.valid_of_ofPrimes madeOther).2
  have properWider : (Poly.zero wider).Proper :=
    ⟨validWider, (Ring.zero_ok validWider.pos).1.reduced⟩
  have properOther : (Poly.zero other).Proper :=
    ⟨validOther, (Ring.zero_ok validOther.pos).1.reduced⟩
  have digits : ∀ d ∈ relinKey.digits, d = (.zero other, .zero other) := by
    simp [relinKey]
  have isOver : zero.IsOver (Context.tiny.basisAt 1) :=
    (Ring.zero_ok Context.sound_tiny.valid.pos).1
  have scale : Scheme.scalesMatch (Binary64.ofFloat 16) (Binary64.ofFloat 16) = true := by
    decide +kernel
  refine ⟨Context.ofParams_tiny, .parts properWider properWider rfl,
    .parts (fun d hd => digits d hd ▸ ⟨properOther, properOther⟩) rfl, rfl, ?_, ?_,
    fun coins => ?_, ?_⟩
  · intro own
    exact nomatch own.b.basis
  · intro own
    exact nomatch (own.digits _ List.mem_cons_self).1.basis
  · exact Operation.encryptPlain_mismatch Context.sound_tiny rfl ⟨Nat.one_lt_two, isOver⟩ rfl coins
  · exact Evaluator.multiply_mismatch (Context.sound_tiny.valid_basisAt 1) isOver isOver isOver
      isOver scale 1 rfl

end ForeignKeys

end CipherFlow
