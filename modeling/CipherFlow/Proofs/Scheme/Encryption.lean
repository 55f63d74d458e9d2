import CipherFlow.Proofs.Ring.Integers
import CipherFlow.Proofs.Scheme.Decryption
import CipherFlow.Proofs.Slots.Encoding

/-!
# Encryption under a public key

The key hides its error `e`, at every level. A message encrypted with the
choices `u`, `e0` and `e1` decrypts to itself and `e * u + e0 + e1 * s` in
addition. As `u` and the secret `s` are sparse with small coefficients, so is
this noise small.

`Plaintext.encryptWith_decryptsTo` has the noise as a polynomial, and the bound for
it.

How the proof goes. A component of the key times `u` has an image that the key
equation gives (`Plaintext.component_ok`), and at the secret all but the noise
cancels (`Plaintext.encryptWith_pair`). That the noise is the image of an integer
polynomial of this size is a matter of counting nonzero coefficients
(`Ephemeral.noise_le`).
-/

namespace CipherFlow

open CipherFlow.Ring (Basis Poly IsTernary)

variable {B b : Basis} {s k0 k1 : Poly} {r : Ephemeral}

/-- The level is one of the chain, and the message is an element over its
basis. -/
structure Plaintext.WellFormed (ctx : Context) (p : Plaintext) : Prop where
  level : p.level < ctx.primes.length
  poly : p.poly.IsOver (ctx.basisAt p.level)

/-- Messages that a context encodes are well formed. -/
theorem Context.wellFormed_of_encode {ctx : Context} (sound : ctx.Sound) {lanes : List Float}
    {packing : Packing} {scale : Binary64} {level : Nat} {p : Plaintext}
    (h : ctx.encode lanes packing scale level = .ok p) :
    p.WellFormed ctx ∧ p.scale = scale ∧ p.level = level := by
  unfold encode at h
  obtain ⟨basis, hbasis, h⟩ := exists_of_bind_eq_ok h
  obtain ⟨slots, -, h⟩ := exists_of_bind_eq_ok h
  obtain ⟨coeffs, hcoeffs, h⟩ := exists_of_bind_eq_ok h
  obtain rfl := Except.ok.inj h
  have length := Slots.Embedding.length_of_encode
    (eq_ok_of_mapError hcoeffs)
  unfold Context.basis at hbasis
  split at hbasis
  · rename_i lt
    obtain rfl := Except.ok.inj hbasis
    exact ⟨⟨lt, Ring.isOver_ofWide (sound.valid_basisAt level).pos length⟩, rfl, rfl⟩
  · exact nomatch hbasis

/-- Choices for an encryption: a ternary `u` with a given number of nonzero
coefficients, and two error polynomials. -/
structure Ephemeral.IsTape (n weight : Nat) (r : Ephemeral) : Prop where
  u : IsTernary n weight r.u
  e0 : r.e0.length = n
  e1 : r.e1.length = n

/-! ## Components -/

/-- What a component of a key gives when it is multiplied with `u` and an
error is added. -/
theorem Plaintext.component_ok (valid : b.Valid) {k : Poly} (hk : k.IsOver b)
    {u e : List Int} (hu : u.length = b.degree) (he : e.length = b.degree) :
    ∃ product c, Poly.promised (k.mul (Poly.ofInts b u)) = .ok product ∧
      product.add (Poly.ofInts b e) = .ok c ∧ c.IsOver b ∧
      c.image b = k.image b * b.image u + b.image e := by
  have self := b.isInitialOf_self
  obtain ⟨product, hproduct, overProduct, imageProduct⟩ :=
    Ring.mul_ok valid.degree_ne hk (Ring.isOver_ofInts valid.pos hu)
  obtain ⟨c, hc, overC, imageC⟩ := Ring.add_ok overProduct (Ring.isOver_ofInts valid.pos he)
  refine ⟨product, c, by rw [hproduct]; rfl, hc, overC, ?_⟩
  rw [imageC b self, imageProduct b self, Ring.image_ofInts valid.pos self,
    Ring.image_ofInts valid.pos self]

/-- The two components of an encryption, at the secret. -/
theorem Plaintext.encryptWith_pair {ctx : Context} (sound : ctx.Sound) {key : PublicKey}
    {hidden : (b : Basis) → b.Quotient} (hides : Key.Hides ctx.topBasis s hidden (key.b, key.a))
    {p : Plaintext} (hp : p.WellFormed ctx) {weight : Nat} (hr : r.IsTape ctx.degree weight) :
    ∃ c0 c1, p.encryptWith ctx key r = .ok ⟨[c0, c1], p.scale, p.level⟩ ∧
      c0.IsOver (ctx.basisAt p.level) ∧ c1.IsOver (ctx.basisAt p.level) ∧
      c0.image (ctx.basisAt p.level) + c1.image (ctx.basisAt p.level) *
          s.image (ctx.basisAt p.level) =
        p.poly.image (ctx.basisAt p.level) +
          (hidden (ctx.basisAt p.level) * (ctx.basisAt p.level).image r.u +
            (ctx.basisAt p.level).image r.e0 +
            (ctx.basisAt p.level).image r.e1 * s.image (ctx.basisAt p.level)) := by
  have valid := sound.valid_basisAt p.level
  obtain ⟨b', a', hkey, overB, overA, phase⟩ :=
    PublicKey.atBasis_ok (ctx.isInitialOf_topBasis p.level) hides
  obtain ⟨bu, d0, hbu, hd0, overD0, imageD0⟩ := component_ok valid overB hr.u.length hr.e0
  obtain ⟨c0, hc0, overC0, imageC0⟩ := Ring.add_ok overD0 hp.poly
  obtain ⟨au, c1, hau, hc1, overC1, imageC1⟩ := component_ok valid overA hr.u.length hr.e1
  refine ⟨c0, c1, ?_, overC0, overC1, ?_⟩
  · rw [encryptWith, Context.basis_ok hp.level]
    show (PublicKey.atBasis key (ctx.basisAt p.level)).mapError _ >>= _ = _
    rw [hkey]
    show (Poly.promised (b'.mul (Poly.ofInts (ctx.basisAt p.level) r.u))).mapError _ >>= _ = _
    rw [hbu]
    show (bu.add (Poly.ofInts (ctx.basisAt p.level) r.e0)).mapError _ >>= _ = _
    rw [hd0]
    show (d0.add p.poly).mapError _ >>= _ = _
    rw [hc0]
    show (Poly.promised (a'.mul (Poly.ofInts (ctx.basisAt p.level) r.u))).mapError _ >>= _ = _
    rw [hau]
    show (au.add (Poly.ofInts (ctx.basisAt p.level) r.e1)).mapError _ >>= _ = _
    rw [hc1]
    rfl
  · rw [imageC0 _ (Basis.isInitialOf_self _), imageD0, imageC1, ← phase]
    ring

/-! ## Noise -/

/-- The noise `e * u + e0 + e1 * s` of an encryption, as an integer
polynomial. -/
def Ephemeral.noise (r : Ephemeral) (e coeffs : List Int) : List Int :=
  Ring.addInts (Ring.addInts (Ring.mulInts r.u e) r.e0) (Ring.mulInts coeffs r.e1)

variable {n weight bound : Nat} {e coeffs : List Int}

theorem Ephemeral.length_noise (hn : n ≠ 0) (hr : r.IsTape n weight) (he : e.length = n) :
    (r.noise e coeffs).length = n :=
  Ring.length_addInts (Ring.length_addInts (Ring.length_mulInts hn he r.u) hr.e0)
    (Ring.length_mulInts hn hr.e1 coeffs)

/-- How large the noise can be. -/
theorem Ephemeral.noise_le (hr : r.IsTape n weight) (hs : IsTernary n weight coeffs)
    (he : ∀ v ∈ e, v.natAbs ≤ bound) (h0 : ∀ v ∈ r.e0, v.natAbs ≤ bound)
    (h1 : ∀ v ∈ r.e1, v.natAbs ≤ bound) :
    ∀ v ∈ r.noise e coeffs, v.natAbs ≤ bound * (2 * weight + 1) := by
  have small := Ring.addInts_le (Ring.addInts_le (Ring.mulInts_le he r.u) h0)
    (Ring.mulInts_le h1 coeffs)
  rw [hr.u.sumAbs_eq, hs.sumAbs_eq] at small
  have total : bound * (2 * weight + 1) = weight * bound + bound + weight * bound := by ring
  rwa [total]

theorem Ephemeral.image_noise (hn : b.degree ≠ 0) (hr : r.IsTape b.degree weight)
    (he : e.length = b.degree) (coeffs : List Int) :
    b.image (r.noise e coeffs) =
      b.image e * b.image r.u + b.image r.e0 + b.image r.e1 * b.image coeffs := by
  have product := Ring.length_mulInts hn he r.u
  have sum := Ring.length_addInts product hr.e0
  have product' := Ring.length_mulInts hn hr.e1 coeffs
  rw [noise, Ring.image_addInts b (sum.trans product'.symm),
    Ring.image_addInts b (product.trans hr.e0.symm), Ring.image_mulInts hn he,
    Ring.image_mulInts hn hr.e1]
  ring

/-! ## Decryption of encryptions -/

/-- A message hides nothing where it stands for itself: it is what every key
decrypts. -/
theorem Plaintext.trivial_decryptsTo {ctx : Context} (sound : ctx.Sound) {p : Plaintext}
    (hp : p.WellFormed ctx) {secret : SecretKey} (hs : secret.poly.IsOver ctx.topBasis) :
    p.trivial.DecryptsTo secret (ctx.basisAt p.level) (p.poly.image (ctx.basisAt p.level)) := by
  have valid := sound.valid_basisAt p.level
  have zero := Ring.zero_ok valid.pos
  have pair := Ciphertext.decryptsTo_of_pair valid (ctx.isInitialOf_topBasis p.level) hs hp.poly
    zero.1 p.scale p.level
  rw [Ring.image_zero (Basis.isInitialOf_self _), zero_mul, add_zero] at pair
  rw [trivial, hp.poly.basis]
  exact pair

/-- An encryption decrypts to its message with noise, which is a small integer
polynomial if the errors are small and the secret and the choices are
sparse. -/
theorem Plaintext.encryptWith_decryptsTo [Primitives] {params : Params} {ctx : Context}
    (hctx : Context.ofParams params = .ok ctx) (hs : IsTernary ctx.degree weight coeffs)
    {a : Poly} (ha : a.IsOver ctx.topBasis) (he : e.length = ctx.degree) {key : PublicKey}
    (hkey : PublicKey.ofSamples (.ofCoefficients ctx.topBasis coeffs) a e = .ok key)
    {p : Plaintext} (hp : p.WellFormed ctx) (hr : r.IsTape ctx.degree weight) :
    ∃ (c : Ciphertext) (noise : List Int), p.encryptWith ctx key r = .ok c ∧
      c.WellFormed ctx ∧ c.size = 2 ∧ c.level = p.level ∧ c.scale = p.scale ∧
      c.DecryptsTo (.ofCoefficients ctx.topBasis coeffs) (ctx.basisAt p.level)
        (p.poly.image (ctx.basisAt p.level) + (ctx.basisAt p.level).image noise) ∧
      (ctx.basisAt p.level).image noise =
        (ctx.basisAt p.level).image e * (ctx.basisAt p.level).image r.u +
          (ctx.basisAt p.level).image r.e0 +
          (ctx.basisAt p.level).image r.e1 * (ctx.basisAt p.level).image coeffs ∧
      noise.length = ctx.degree ∧
      ∀ bound : Nat, (∀ v ∈ e, v.natAbs ≤ bound) → (∀ v ∈ r.e0, v.natAbs ≤ bound) →
        (∀ v ∈ r.e1, v.natAbs ≤ bound) → ∀ v ∈ noise, v.natAbs ≤ bound * (2 * weight + 1) := by
  have sound := Context.sound_of_ofParams hctx
  have valid := sound.valid_basisAt p.level
  have small := ctx.isInitialOf_topBasis p.level
  have hn : ctx.degree ≠ 0 := sound.valid.degree_ne
  have isOver : (SecretKey.ofCoefficients ctx.topBasis coeffs).poly.IsOver ctx.topBasis :=
    Ring.isOver_ofInts sound.valid.pos hs.length
  obtain ⟨key', eq, hides⟩ := PublicKey.ofSamples_ok sound.valid isOver ha he
  obtain rfl := Except.ok.inj (eq.symm.trans hkey)
  obtain ⟨c0, c1, hc, over0, over1, image⟩ := encryptWith_pair sound hides hp hr
  have imageSecret : (SecretKey.ofCoefficients ctx.topBasis coeffs).poly.image
      (ctx.basisAt p.level) = (ctx.basisAt p.level).image coeffs :=
    Ring.image_ofInts sound.valid.pos small coeffs
  have imageNoise := Ephemeral.image_noise valid.degree_ne hr he coeffs
  have decrypts := Ciphertext.decryptsTo_of_pair valid small isOver over0 over1 p.scale p.level
  rw [image, imageSecret, ← imageNoise] at decrypts
  exact ⟨⟨[c0, c1], p.scale, p.level⟩, r.noise e coeffs, hc,
    Ciphertext.wellFormed_pair hp.level over0 over1 p.scale, rfl, rfl, rfl, decrypts, imageNoise,
    Ephemeral.length_noise hn hr he,
    fun bound small small0 small1 => Ephemeral.noise_le hr hs small small0 small1⟩

namespace Plaintext.Tiny

/-- A secret with two nonzero coefficients. -/
def secret : List Int :=
  [1, 0, -1, 0]

/-- A sample for a public key of the secret. -/
def uniform : Poly :=
  .ofInts Context.tiny.topBasis [11, -7, 100, 3]

/-- A message at the lower of the two levels. -/
def message : Plaintext :=
  ⟨.ofInts (Context.tiny.basisAt 0) [5, 6, 7, 8], .ofFloat 16, 0⟩

/-- The choices of an encryption. -/
def tape : Ephemeral :=
  ⟨[0, 1, 0, -1], [1, 1, 0, -1], [0, 2, 0, 1]⟩

attribute [local instance] Primitives.coarse

/-- Errors of at most two in magnitude give noise of at most ten. -/
theorem encryptWith_decryptsTo_tiny :
    Context.ofParams Context.tiny.params = .ok Context.tiny ∧ IsTernary 4 2 secret ∧
    uniform.IsOver Context.tiny.topBasis ∧ message.WellFormed Context.tiny ∧
    tape.IsTape 4 2 ∧
    ∃ key, PublicKey.ofSamples (.ofCoefficients Context.tiny.topBasis secret) uniform
        [1, 0, -2, 0] = .ok key ∧
    ∃ (c : Ciphertext) (noise : List Int), message.encryptWith Context.tiny key tape = .ok c ∧
      c.size = 2 ∧ c.level = 0 ∧ c.scale = .ofFloat 16 ∧
      c.DecryptsTo (.ofCoefficients Context.tiny.topBasis secret) (Context.tiny.basisAt 0)
        (message.poly.image (Context.tiny.basisAt 0) + (Context.tiny.basisAt 0).image noise) ∧
      noise.length = 4 ∧ ∀ v ∈ noise, v.natAbs ≤ 10 := by
  have valid := Context.sound_tiny.valid
  have hs : IsTernary 4 2 secret := ⟨rfl, by decide, by decide⟩
  have ha : uniform.IsOver Context.tiny.topBasis := Ring.isOver_ofInts valid.pos rfl
  have hp : message.WellFormed Context.tiny :=
    ⟨Nat.zero_lt_two, Context.sound_tiny.isOver_ofInts 0 rfl⟩
  have hr : tape.IsTape 4 2 := ⟨⟨rfl, by decide, by decide⟩, rfl, rfl⟩
  have isOver : (SecretKey.ofCoefficients Context.tiny.topBasis secret).poly.IsOver
      Context.tiny.topBasis := Ring.isOver_ofInts valid.pos rfl
  obtain ⟨key, hkey, -⟩ := PublicKey.ofSamples_ok (e := [1, 0, -2, 0]) valid isOver ha rfl
  obtain ⟨c, noise, hc, -, size, level, scale, decrypts, -, length, le⟩ :=
    encryptWith_decryptsTo Context.ofParams_tiny hs ha rfl hkey hp hr
  exact ⟨Context.ofParams_tiny, hs, ha, hp, hr, key, hkey, c, noise, hc, size, level, scale,
    decrypts, length, le 2 (by decide) (by decide) (by decide)⟩

end Plaintext.Tiny

end CipherFlow
