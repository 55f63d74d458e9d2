import CipherFlow.Proofs.Ring.Rounding
import CipherFlow.Proofs.Scheme.Decryption
import CipherFlow.Scheme.Evaluator
import Mathlib.Tactic.NormNum.Prime

/-!
# Rescaling

Rescaling divides every component by the prime of the level. What a component
loses is its centred residue modulo that prime, so what the message loses is
the value of these residues at the secret. The secret is small, and so is the
loss.

`Evaluator.rescale_rounds` has both parts: what division makes of integer
coefficients, and what rescaling makes of a ciphertext.

How the proof goes. For one element the division by the last prime is
`CipherFlow.Proofs.Ring.Rounding`. The components of a ciphertext are divided one by
one, and the values of the quotients and of the remainders at the secret make up the
value of the whole (`divide_components`). For two components the remainders are
counted once as they are and once for each nonzero coefficient of the secret
(`remainderAt_pair`).
-/

namespace CipherFlow

open CipherFlow.Ring (Basis Poly IsTernary)

variable {ctx : Context} {c : Ciphertext} {coeffs : List Int} {level weight : Nat}

/-! ## The level below -/

/-- The basis of a level is divided by its last prime at the level below. -/
theorem Context.Sound.divides (h : ctx.Sound) (prime : ∀ q ∈ ctx.primes, q.Prime)
    (pos : 1 ≤ level) (lt : level < ctx.primes.length) :
    Ring.Divides (ctx.basisAt level) (ctx.basisAt (level - 1)) where
  prime := fun q hq => prime q (List.mem_of_mem_take hq)
  odd := fun q hq => h.odd q (List.mem_of_mem_take hq)
  nodup := (h.valid_basisAt level).nodup
  several := by
    rw [Context.length_basisAt lt]
    omega
  small := ctx.isInitialOf_basisAt (by omega)
  fewer := by
    rw [Context.length_basisAt lt, Context.length_basisAt (show level - 1 < _ by omega)]
    omega

/-- The last prime of a level is the one that rescaling divides by. -/
theorem Context.getElem?_level (lt : level < ctx.primes.length) :
    ctx.primes[level]? = some (ctx.basisAt level).lastPrime := by
  have last : (ctx.primes.take (level + 1)).getLast? = ctx.primes[level]? := by
    rw [List.getLast?_take, if_neg (Nat.succ_ne_zero level), Nat.add_sub_cancel,
      List.getElem?_eq_getElem lt]
    rfl
  rw [Basis.lastPrime, Context.basisAt, List.getLastD_eq_getLast?, last,
    List.getElem?_eq_getElem lt, Option.getD_some]

namespace Ciphertext

/-! ## What is lost -/

/-- The components are divided one by one, and their value with them. The
scales do not matter, and neither does the level that is left. -/
theorem divide_components {B target : Basis} (h : Ring.Divides B target)
    {components : List Poly} (isOver : ∀ p ∈ components, p.IsOver B) (secret : SecretKey)
    (scale scale' : Binary64) (level' : Nat) :
    ∃ divided, List.Forall₂ (fun p r => p.divideByLast target = .ok r) components divided ∧
      (∀ p ∈ divided, p.IsOver target) ∧
      (B.lastPrime : target.Quotient) * valueAt ⟨divided, scale', level'⟩ secret target =
        valueAt ⟨components, scale, target.primes.length⟩ secret target -
          remainderAt ⟨components, scale, target.primes.length⟩ secret target := by
  induction components with
  | nil => exact ⟨[], .nil, List.forall_mem_nil _, by simp [valueAt, remainderAt]⟩
  | cons p components ih =>
    obtain ⟨overFirst, overRest⟩ := List.forall_mem_cons.mp isOver
    obtain ⟨r, hr, overR, imageR⟩ := h.divideByLast_ok overFirst
    obtain ⟨divided, hdivided, overDivided, value⟩ := ih overRest
    refine ⟨r :: divided, .cons hr hdivided, List.forall_mem_cons.mpr ⟨overR, overDivided⟩, ?_⟩
    rw [valueAt_cons, valueAt_cons, remainderAt_cons]
    linear_combination imageR + secret.poly.image target * value

/-- What the loss is for two components: its coefficients are those of the
residues, once as they are and once for each nonzero coefficient of the
secret. -/
theorem remainderAt_pair {b B : Basis} (small : b.isInitialOf B = true)
    (pos : ∀ q ∈ B.primes, 0 < q) (ternary : IsTernary b.degree weight coeffs)
    {c0 c1 : Poly} {scale : Binary64} {m : Nat} (hn : b.degree ≠ 0)
    (h0 : (c0.centred level).length = b.degree ∧ ∀ v ∈ c0.centred level, v.natAbs ≤ m)
    (h1 : (c1.centred level).length = b.degree ∧ ∀ v ∈ c1.centred level, v.natAbs ≤ m) :
    ∃ loss : List Int, loss.length = b.degree ∧ (∀ v ∈ loss, v.natAbs ≤ m * (1 + weight)) ∧
      remainderAt ⟨[c0, c1], scale, level⟩ (.ofCoefficients B coeffs) b = b.image loss := by
  have product := Ring.length_mulInts hn h1.1 coeffs
  refine ⟨Ring.addInts (c0.centred level) (Ring.mulInts coeffs (c1.centred level)),
    Ring.length_addInts h0.1 product, ?_, ?_⟩
  · have bound : m * (1 + weight) = m + Ring.sumAbs coeffs * m := by
      rw [ternary.sumAbs_eq, Nat.mul_add, Nat.mul_one, Nat.mul_comm]
    rw [bound]
    exact Ring.addInts_le h0.2 (Ring.mulInts_le h1.2 coeffs)
  · have sum : remainderAt ⟨[c0, c1], scale, level⟩ (.ofCoefficients B coeffs) b =
        b.image (c0.centred level) * (Poly.ofInts B coeffs).image b ^ 0 +
          b.image (c1.centred level) * (Poly.ofInts B coeffs).image b ^ 1 := Fin.sum_univ_two _
    rw [sum, pow_zero, mul_one, pow_one, Ring.image_ofInts pos small,
      Ring.image_addInts b (h0.1.trans product.symm), Ring.image_mulInts hn h1.1, mul_comm]

end Ciphertext

/-! ## Rescaling a ciphertext -/

/-- What rescaling makes of a ciphertext under a secret with the given
coefficients, `weight` of them nonzero. -/
structure Ciphertext.RescalesTo (ctx : Context) (coeffs : List Int) (weight q : Nat)
    (c r : Ciphertext) : Prop where
  /-- One level down, with as many components. -/
  wellFormed : r.WellFormed ctx
  size : r.size = c.size
  level : r.level = c.level - 1
  scale : r.scale = c.scale / .ofNat q
  /-- Times the prime, the message that is left is the message without what
  the components lose. -/
  decrypts : ∃ p p', c.decrypt (.ofCoefficients ctx.topBasis coeffs) = .ok p ∧
    r.decrypt (.ofCoefficients ctx.topBasis coeffs) = .ok p' ∧
    p'.poly.IsOver (ctx.basisAt (c.level - 1)) ∧
    (q : (ctx.basisAt (c.level - 1)).Quotient) * p'.poly.image (ctx.basisAt (c.level - 1)) =
      p.poly.image (ctx.basisAt (c.level - 1)) -
        c.remainderAt (.ofCoefficients ctx.topBasis coeffs) (ctx.basisAt (c.level - 1))
  /-- With two components what they lose is small. -/
  loss : c.size = 2 → ∃ loss : List Int, loss.length = ctx.degree ∧
    (∀ v ∈ loss, v.natAbs ≤ (q - 1) / 2 * (1 + weight)) ∧
    c.remainderAt (.ofCoefficients ctx.topBasis coeffs) (ctx.basisAt (c.level - 1)) =
      (ctx.basisAt (c.level - 1)).image loss

/-- Above the lowest level a ciphertext is rescaled by dividing its components. -/
theorem Evaluator.rescale_of_divided {ev : Evaluator} (same : ev.context = ctx)
    (pos : 1 ≤ c.level) (last : ctx.primes[c.level]? = some q) {divided : List Poly}
    (hdivided : List.Forall₂ (fun p r => p.divideByLast (ctx.basisAt (c.level - 1)) = .ok r)
      c.components divided) :
    ev.rescale c = .ok ⟨divided, c.scale / .ofNat q, c.level - 1⟩ := by
  have below : c.level - 1 < ctx.primes.length :=
    lt_of_le_of_lt (Nat.sub_le _ _) (List.getElem?_eq_some_iff.mp last).1
  have modulus : ctx.rescaleModulus c.level = some q := by
    rw [Context.rescaleModulus, if_neg (by omega), last]
  have components : c.components.mapM (fun p =>
      (p.divideByLast (ctx.basisAt (c.level - 1))).mapError Scheme.Error.ring) = .ok divided :=
    mapM_eq_ok_iff.mpr (hdivided.imp fun p r hr => by rw [hr]; rfl)
  unfold rescale
  rw [same, modulus]
  show ctx.basis (c.level - 1) >>= _ = _
  rw [Context.basis_ok below]
  show (c.components.mapM fun p =>
    (p.divideByLast (ctx.basisAt (c.level - 1))).mapError Scheme.Error.ring) >>= _ = _
  rw [components]
  rfl

theorem Evaluator.rescale_ok {ev : Evaluator} (sound : ctx.Sound)
    (prime : ∀ q ∈ ctx.primes, q.Prime) (ternary : IsTernary ctx.degree weight coeffs)
    (same : ev.context = ctx) (hc : c.WellFormed ctx) (some' : c.components ≠ [])
    (pos : 1 ≤ c.level) :
    ∃ q r, ctx.primes[c.level]? = some q ∧ ev.rescale c = .ok r ∧
      c.RescalesTo ctx coeffs weight q r := by
  have divides := sound.divides prime pos hc.level
  have last := Context.getElem?_level hc.level
  have below : c.level - 1 < ctx.primes.length := lt_of_le_of_lt (Nat.sub_le _ _) hc.level
  have count : (ctx.basisAt (c.level - 1)).primes.length = c.level := by
    rw [Context.length_basisAt below]
    omega
  have overSecret : (SecretKey.ofCoefficients ctx.topBasis coeffs).poly.IsOver ctx.topBasis :=
    Ring.isOver_ofInts sound.valid.pos ternary.length
  obtain ⟨divided, hdivided, overDivided, value⟩ := Ciphertext.divide_components divides
    hc.components (.ofCoefficients ctx.topBasis coeffs) c.scale
    (c.scale / .ofNat (ctx.basisAt c.level).lastPrime) (c.level - 1)
  simp only [count] at value
  refine ⟨_, ⟨divided, c.scale / .ofNat (ctx.basisAt c.level).lastPrime, c.level - 1⟩, last,
    rescale_of_divided same pos last hdivided, ?_⟩
  obtain ⟨p, hp, -, -, -, imageP⟩ := Ciphertext.decrypt_ok (sound.valid_basisAt c.level)
    (ctx.isInitialOf_topBasis c.level) overSecret some' hc.components
  have someDivided : divided ≠ [] := by
    intro nil
    rw [nil, List.forall₂_nil_right_iff] at hdivided
    exact some' hdivided
  obtain ⟨p', hp', -, -, overP', imageP'⟩ := Ciphertext.decrypt_ok
    (c := ⟨divided, c.scale / .ofNat (ctx.basisAt c.level).lastPrime, c.level - 1⟩)
    (sound.valid_basisAt (c.level - 1)) (ctx.isInitialOf_topBasis (c.level - 1)) overSecret
    someDivided overDivided
  refine ⟨⟨below, overDivided⟩, hdivided.length_eq.symm, rfl, rfl,
    ⟨p, p', hp, hp', overP', ?_⟩, ?_⟩
  · rw [imageP _ divides.small, imageP' _ (Basis.isInitialOf_self _)]
    exact value
  · intro two
    obtain ⟨components, scale, level⟩ := c
    obtain ⟨c0, c1, rfl⟩ := List.length_eq_two.mp two
    have odd := sound.odd _ (List.mem_of_getElem? last)
    have prime : (ctx.basisAt level).primes[level]? = some (ctx.basisAt level).lastPrime := by
      rw [Context.basisAt, List.getElem?_take_of_lt (Nat.lt_succ_self level)]
      exact last
    exact Ciphertext.remainderAt_pair (ctx.isInitialOf_topBasis (level - 1)) sound.valid.pos
      ternary (sound.valid_basisAt (level - 1)).degree_ne
      (Ring.centred_le (hc.components c0 (by simp)) prime odd)
      (Ring.centred_le (hc.components c1 (by simp)) prime odd)

/-- Rescaling is exact rounding. A ring element with given integer coefficients
becomes the one with the nearest integers to their quotients by the last prime.
A ciphertext above the lowest level can be rescaled, and what it decrypts to,
times the prime of its level, is what it decrypted to before, without the
centred residues of its components at the secret. -/
theorem Evaluator.rescale_rounds [Primitives] :
    (∀ (B target : Basis) (c : List Int), (∀ q ∈ B.primes, q.Prime ∧ q % 2 = 1) →
      B.primes.Nodup → 2 ≤ B.primes.length → target.isInitialOf B = true →
      target.primes.length + 1 = B.primes.length →
      (Poly.ofInts B c).divideByLast target =
        .ok (Poly.ofInts target (c.map fun v : Int => round ((v : ℚ) / B.lastPrime)))) ∧
    ∀ (params : Params) (ctx : Context) (ev : Evaluator) (coeffs : List Int) (weight : Nat)
      (c : Ciphertext), Context.ofParams params = .ok ctx → (∀ q ∈ ctx.primes, q.Prime) →
      ev.context = ctx → IsTernary ctx.degree weight coeffs → c.WellFormed ctx →
      c.components ≠ [] → 1 ≤ c.level →
      ∃ q r, ctx.primes[c.level]? = some q ∧ ev.rescale c = .ok r ∧
        c.RescalesTo ctx coeffs weight q r := by
  constructor
  · intro B target c each nodup several small fewer
    have divides : Ring.Divides B target :=
      ⟨fun q hq => (each q hq).1, fun q hq => (each q hq).2, nodup, several, small, fewer⟩
    exact divides.divideByLast_ofInts c
  · intro params ctx ev coeffs weight c ofParams prime same ternary hc some' pos
    exact rescale_ok (Context.sound_of_ofParams ofParams) prime ternary same hc some' pos

attribute [local instance] Primitives.coarse

/-- Both parts for a chain of two primes. -/
theorem Evaluator.rescale_rounds_tiny :
    (∀ q ∈ Context.tiny.topBasis.primes, q.Prime ∧ q % 2 = 1) ∧
    (Poly.ofInts Context.tiny.topBasis [1000, -1000, 120, 121]).divideByLast
        (Context.tiny.basisAt 0) =
      .ok (Poly.ofInts (Context.tiny.basisAt 0) ([1000, -1000, 120, 121].map fun v : Int =>
        round ((v : ℚ) / Context.tiny.topBasis.lastPrime))) ∧
    IsTernary 4 2 [1, 0, -1, 0] ∧
    ∃ (c r : Ciphertext) (ev : Evaluator), c.size = 2 ∧ c.level = 1 ∧ ev.rescale c = .ok r ∧
      c.RescalesTo Context.tiny [1, 0, -1, 0] 2 241 r := by
  have prime : ∀ q ∈ Context.tiny.primes, q.Prime ∧ q % 2 = 1 := by
    have base : Nat.Prime 457 := by norm_num
    have rescaling : Nat.Prime 241 := by norm_num
    exact List.forall_mem_cons.mpr ⟨⟨base, rfl⟩, List.forall_mem_singleton.mpr ⟨rescaling, rfl⟩⟩
  have ternary : IsTernary 4 2 [1, 0, -1, 0] := ⟨rfl, by decide, rfl⟩
  have wellFormed : Ciphertext.WellFormed Context.tiny
      ⟨[.ofInts (Context.tiny.basisAt 1) [1, 2, 3, 4],
        .ofInts (Context.tiny.basisAt 1) [500, 6, 7, 8]], .ofFloat 256, 1⟩ :=
    Ciphertext.wellFormed_pair Nat.one_lt_two (Context.sound_tiny.isOver_ofInts 1 rfl)
      (Context.sound_tiny.isOver_ofInts 1 rfl) _
  obtain ⟨q, r, hq, hr, rescales⟩ := rescale_rounds.2 Context.tiny.params Context.tiny
    ⟨Context.tiny, ⟨.zero Context.tiny.topBasis, .zero Context.tiny.topBasis⟩, ⟨[]⟩⟩
    [1, 0, -1, 0] 2 _ Context.ofParams_tiny (fun q hq => (prime q hq).1) rfl ternary wellFormed
    (List.cons_ne_nil _ _) (Nat.le_refl 1)
  obtain rfl : 241 = q := Option.some.inj hq
  exact ⟨prime, rescale_rounds.1 Context.tiny.topBasis (Context.tiny.basisAt 0) _ prime (by decide)
    (by decide) (by decide) (by decide), ternary, _, r, _, rfl, rfl, hr, rescales⟩

end CipherFlow
