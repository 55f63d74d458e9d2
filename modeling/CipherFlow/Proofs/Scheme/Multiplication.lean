import CipherFlow.Proofs.Scheme.Decryption
import CipherFlow.Scheme.Evaluator

/-!
# The product of two ciphertexts

The product has a component at the square of the secret. The digits of this
component, times the digits of a relinearisation key, replace it: each digit
of the key hides the square in one channel only, where the digit of the
component is the component itself. What remains of the errors of the key are
their products with the digits of the component.

`Evaluator.multiply_decryptsTo` states it for whatever samples the relinearisation
key was made of, with the bound for the digits.

How the proof goes. One digit that meets its key component adds what the sample
hides, times the digit (`Evaluator.digit_step`), and `Evaluator.switchKey_ok` is the
induction over the digits. The digits, each in its own channel, add up to the
element (`Ring.sum_centred_mul_only`); so the squares of the secret that the key
hides add up to the third component times the square (`Evaluator.multiply_hidden`).
-/

namespace CipherFlow

open CipherFlow.Ring (Basis Poly)
open Finset (range)

variable {B b : Basis} {s d c0 c1 : Poly}

/-! ## Switching keys -/

/-- A digit of an element, and what it adds to a component when it meets a
component of a key. -/
theorem Evaluator.digit_step (valid : b.Valid) (hd : d.IsOver b) {index : Nat}
    (lt : index < b.primes.length) :
    ∃ digit, d.digit index = .ok digit ∧ ∀ c k : Poly, c.IsOver b → k.IsOver b →
      ∃ product r, digit.mul k = .ok product ∧ c.add product = .ok r ∧ r.IsOver b ∧
        r.image b = c.image b + b.image (d.centred index) * k.image b := by
  have prime : b.primes[index]? = some b.primes[index] := List.getElem?_eq_getElem lt
  have length : (d.centred index).length = b.degree := by
    rw [Poly.centred, List.length_map, (hd.channel prime).1.length]
  refine ⟨Poly.ofInts b (d.centred index), Ring.digit_ok hd prime, ?_⟩
  intro c k hc hk
  have overDigit := Ring.isOver_ofInts valid.pos length
  obtain ⟨product, hproduct, overProduct, imageProduct⟩ :=
    Ring.mul_ok valid.degree_ne overDigit hk
  obtain ⟨r, hr, overR, imageR⟩ := Ring.add_ok hc overProduct
  refine ⟨product, r, hproduct, hr, overR, ?_⟩
  rw [imageR b b.isInitialOf_self, imageProduct b b.isInitialOf_self,
    Ring.image_ofInts valid.pos b.isInitialOf_self]

/-- Each digit of `d` picks up what the sample of its channel hides. -/
theorem Evaluator.switchKey_ok (valid : b.Valid) (hd : d.IsOver b) (x : b.Quotient)
    (hidden : Nat → b.Quotient) {samples : List (Poly × Poly)} {index : Nat}
    (fits : index + samples.length ≤ b.primes.length)
    (hides : ∀ (i : Nat) (k : Poly × Poly), samples[i]? = some k → k.1.IsOver b ∧
      k.2.IsOver b ∧ k.1.image b + k.2.image b * x = hidden (index + i))
    (h0 : c0.IsOver b) (h1 : c1.IsOver b) :
    ∃ r0 r1, switchKey d index samples c0 c1 = .ok (r0, r1) ∧ r0.IsOver b ∧ r1.IsOver b ∧
      r0.image b + r1.image b * x = c0.image b + c1.image b * x +
        ∑ i ∈ range samples.length, b.image (d.centred (index + i)) * hidden (index + i) := by
  induction samples generalizing index c0 c1 with
  | nil => exact ⟨c0, c1, rfl, h0, h1, by simp⟩
  | cons k samples ih =>
    obtain ⟨kb, ka⟩ := k
    rw [List.length_cons] at fits
    obtain ⟨overB, overA, phase⟩ := hides 0 (kb, ka) rfl
    obtain ⟨digit, hdigit, step⟩ := digit_step valid hd (show index < b.primes.length by omega)
    obtain ⟨db, s0, hdb, hs0, overS0, imageS0⟩ := step c0 kb h0 overB
    obtain ⟨da, s1, hda, hs1, overS1, imageS1⟩ := step c1 ka h1 overA
    have shift : ∀ i, index + 1 + i = index + (i + 1) := fun i => by omega
    have rest : index + 1 + samples.length ≤ b.primes.length := by omega
    obtain ⟨r0, r1, hr, over0, over1, image⟩ :=
      ih rest (fun i k hk => by rw [shift]; exact hides (i + 1) k hk) overS0 overS1
    refine ⟨r0, r1, ?_, over0, over1, ?_⟩
    · rw [switchKey, hdigit]
      show digit.mul kb >>= _ = _
      rw [hdb]
      show c0.add db >>= _ = _
      rw [hs0]
      show digit.mul ka >>= _ = _
      rw [hda]
      show c1.add da >>= _ = _
      rw [hs1]
      exact hr
    · rw [image, imageS0, imageS1, List.length_cons, Finset.sum_range_succ', ← phase]
      simp only [shift, Nat.add_zero]
      ring

/-- The digits of an element, each put into its own channel, give the
element. -/
theorem Ring.sum_centred_mul_only (hd : d.IsOver b) (x : b.Quotient) :
    ∑ i ∈ range b.primes.length, b.image (d.centred i) * b.only i x = d.image b * x := by
  funext i
  rw [Finset.sum_apply, Finset.sum_eq_single i.val]
  · rw [Pi.mul_apply, Pi.mul_apply, Ring.image_centred hd i, Basis.only, if_pos rfl]
  · intro j _ ne
    rw [Pi.mul_apply, Basis.only, if_neg (Ne.symm ne), mul_zero]
  · intro out
    exact absurd (Finset.mem_range.mpr i.isLt) out

/-! ## Relinearisation -/

/-- The product of two pairs: three products of components, the last one of
which is relinearised. -/
theorem Evaluator.multiply_pairs (ev : Evaluator) (valid : b.Valid) {a0 a1 b0 b1 : Poly}
    (ha0 : a0.IsOver b) (ha1 : a1.IsOver b) (hb0 : b0.IsOver b) (hb1 : b1.IsOver b)
    {σ τ : Binary64} (hscale : Scheme.scalesMatch σ τ = true) (level : Nat) :
    ∃ d0 d1 d, ev.multiply ⟨[a0, a1], σ, level⟩ ⟨[b0, b1], τ, level⟩ =
        (ev.relinearise d0 d1 d).map (fun r => ⟨[r.1, r.2], σ * τ, level⟩) ∧
      a1.mul b1 = .ok d ∧ d0.IsOver b ∧ d1.IsOver b ∧ d.IsOver b ∧
      d0.image b = a0.image b * b0.image b ∧
      d1.image b = a0.image b * b1.image b + a1.image b * b0.image b ∧
      d.image b = a1.image b * b1.image b := by
  have self := b.isInitialOf_self
  have hn := valid.degree_ne
  obtain ⟨d0, hd0, overD0, imageD0⟩ := Ring.mul_ok hn ha0 hb0
  obtain ⟨cross, hcross, overCross, imageCross⟩ := Ring.mul_ok hn ha0 hb1
  obtain ⟨cross', hcross', overCross', imageCross'⟩ := Ring.mul_ok hn ha1 hb0
  obtain ⟨d1, hd1, overD1, imageD1⟩ := Ring.add_ok overCross overCross'
  obtain ⟨d, hd, overD, imageD⟩ := Ring.mul_ok hn ha1 hb1
  refine ⟨d0, d1, d, ?_, hd, overD0, overD1, overD, imageD0 b self, ?_, imageD b self⟩
  · rw [multiply, Scheme.checkLevel, if_pos rfl, Scheme.checkScale, if_pos hscale]
    show (a0.mul b0).mapError _ >>= _ = _
    rw [hd0]
    show (a0.mul b1).mapError _ >>= _ = _
    rw [hcross]
    show (a1.mul b0).mapError _ >>= _ = _
    rw [hcross']
    show (cross.add cross').mapError _ >>= _ = _
    rw [hd1]
    show (a1.mul b1).mapError _ >>= _ = _
    rw [hd]
    show ev.relinearise d0 d1 d >>= _ = _
    cases ev.relinearise d0 d1 d <;> rfl
  · rw [imageD1 b self, imageCross b self, imageCross' b self]

section Digits

variable {ev : Evaluator} {hidden : Nat → (b : Basis) → b.Quotient} (small : b.isInitialOf B = true)
  (length : ev.relinKey.digits.length = B.primes.length)
  (hides : ∀ (i : Nat) (k : Poly × Poly), ev.relinKey.digits[i]? = some k →
    Key.Hides B s (hidden i) k)

include small length hides

/-- The pair that replaces three components picks up what the digits of the
key hide, each times the digit of the last component. -/
theorem Evaluator.relinearise_hidden (valid : b.Valid) (h0 : c0.IsOver b) (h1 : c1.IsOver b)
    (hd : d.IsOver b) :
    ∃ r0 r1, ev.relinearise c0 c1 d = .ok (r0, r1) ∧ r0.IsOver b ∧ r1.IsOver b ∧
      r0.image b + r1.image b * s.image b = c0.image b + c1.image b * s.image b +
        ∑ i ∈ range b.primes.length, b.image (d.centred i) * hidden i b := by
  have fewer : b.primes.length ≤ ev.relinKey.digits.length := by
    simp only [Basis.isInitialOf, Bool.and_eq_true, List.isPrefixOf_iff_prefix] at small
    exact length ▸ small.2.length_le
  obtain ⟨digits, hdigits, count, facts⟩ := RelinKey.digitsAt_ok small fewer hides
  have fits : 0 + digits.length ≤ b.primes.length := by omega
  obtain ⟨r0, r1, hr, over0, over1, image⟩ := switchKey_ok valid hd (s.image b)
    (fun i => hidden i b) fits (fun i k hk => by rw [Nat.zero_add]; exact facts i k hk) h0 h1
  refine ⟨r0, r1, ?_, over0, over1, ?_⟩
  · rw [relinearise, hd.basis, hdigits]
    show (switchKey d 0 digits c0 c1).mapError _ = _
    rw [hr]
    rfl
  · rw [image, count]
    simp only [Nat.zero_add]

/-- What the product of two pairs hides. -/
theorem Evaluator.multiply_hidden (valid : b.Valid) {a0 a1 b0 b1 : Poly} (ha0 : a0.IsOver b)
    (ha1 : a1.IsOver b) (hb0 : b0.IsOver b) (hb1 : b1.IsOver b) {σ τ : Binary64}
    (hscale : Scheme.scalesMatch σ τ = true) (level : Nat) :
    ∃ r0 r1 d, ev.multiply ⟨[a0, a1], σ, level⟩ ⟨[b0, b1], τ, level⟩ =
        .ok ⟨[r0, r1], σ * τ, level⟩ ∧
      r0.IsOver b ∧ r1.IsOver b ∧ a1.mul b1 = .ok d ∧ d.IsOver b ∧
      d.image b = a1.image b * b1.image b ∧
      r0.image b + r1.image b * s.image b =
        a0.image b * b0.image b + (a0.image b * b1.image b + a1.image b * b0.image b) * s.image b +
          ∑ i ∈ range b.primes.length, b.image (d.centred i) * hidden i b := by
  obtain ⟨d0, d1, d, products, hd, overD0, overD1, overD, image0, image1, imageD⟩ :=
    ev.multiply_pairs valid ha0 ha1 hb0 hb1 hscale level
  obtain ⟨r0, r1, hr, over0, over1, image⟩ :=
    relinearise_hidden small length hides valid overD0 overD1 overD
  refine ⟨r0, r1, d, ?_, over0, over1, hd, overD, imageD, ?_⟩
  · rw [products, hr]
    rfl
  · rw [image, image0, image1]

end Digits

/-! ## Products -/

/-- The product of two pairs has the product of their values at the secret, up
to the errors of the key times the digits of the last component. -/
theorem Evaluator.multiply_pair (valid : B.Valid) (validLevel : b.Valid)
    (small : b.isInitialOf B = true) {secret : SecretKey} (hs : secret.poly.IsOver B)
    {samples : List (Poly × List Int)} (hsamples : RelinKey.AreSamples B samples)
    {ev : Evaluator} (hkey : RelinKey.ofSamples secret samples = .ok ev.relinKey)
    {a0 a1 b0 b1 : Poly} (ha0 : a0.IsOver b) (ha1 : a1.IsOver b) (hb0 : b0.IsOver b)
    (hb1 : b1.IsOver b) {σ τ : Binary64} (hscale : Scheme.scalesMatch σ τ = true)
    (level : Nat) :
    ∃ r0 r1 d, ev.multiply ⟨[a0, a1], σ, level⟩ ⟨[b0, b1], τ, level⟩ =
        .ok ⟨[r0, r1], σ * τ, level⟩ ∧
      r0.IsOver b ∧ r1.IsOver b ∧ a1.mul b1 = .ok d ∧ d.IsOver b ∧
      r0.image b + r1.image b * secret.poly.image b =
        (a0.image b + a1.image b * secret.poly.image b) *
            (b0.image b + b1.image b * secret.poly.image b) +
          ∑ i ∈ range b.primes.length,
            b.image (d.centred i) * b.image (RelinKey.errorOf samples i) := by
  obtain ⟨key, eq, length, hides⟩ := RelinKey.ofSamples_ok valid hs hsamples
  obtain rfl := Except.ok.inj (eq.symm.trans hkey)
  obtain ⟨r0, r1, d, hr, over0, over1, hd, overD, imageD, image⟩ :=
    multiply_hidden small length hides validLevel ha0 ha1 hb0 hb1 hscale level
  refine ⟨r0, r1, d, hr, over0, over1, hd, overD, ?_⟩
  rw [image]
  simp only [RelinKey.hidden, mul_add, Finset.sum_add_distrib, Ring.sum_centred_mul_only overD,
    imageD]
  ring

/-- A product of two ciphertexts decrypts to the product of what they decrypt
to, and in addition to the errors of the relinearisation key, each times a
digit of the product of the second components. A digit is an integer polynomial
with coefficients of at most half a prime. -/
theorem Evaluator.multiply_decryptsTo [Primitives] {params : Params} {ctx : Context}
    (hctx : Context.ofParams params = .ok ctx) {secret : SecretKey}
    (hs : secret.poly.IsOver ctx.topBasis) {samples : List (Poly × List Int)}
    (hsamples : RelinKey.AreSamples ctx.topBasis samples) {ev : Evaluator}
    (hkey : RelinKey.ofSamples secret samples = .ok ev.relinKey) {a b : Ciphertext}
    (ha : a.WellFormed ctx) (hb : b.WellFormed ctx) (sizeA : a.size = 2) (sizeB : b.size = 2)
    (hlevel : a.level = b.level) (hscale : Scheme.scalesMatch a.scale b.scale = true) :
    ∃ (c : Ciphertext) (x y : (ctx.basisAt a.level).Quotient) (a1 b1 d : Poly),
      ev.multiply a b = .ok c ∧
      c.WellFormed ctx ∧ c.size = 2 ∧ c.level = a.level ∧ c.scale = a.scale * b.scale ∧
      a.DecryptsTo secret (ctx.basisAt a.level) x ∧
      b.DecryptsTo secret (ctx.basisAt a.level) y ∧
      a.components[1]? = some a1 ∧ b.components[1]? = some b1 ∧ a1.mul b1 = .ok d ∧
      c.DecryptsTo secret (ctx.basisAt a.level)
        (x * y + ∑ i ∈ range (a.level + 1), (ctx.basisAt a.level).image (d.centred i) *
          (ctx.basisAt a.level).image (RelinKey.errorOf samples i)) ∧
      ∀ (i q : Nat), (ctx.basisAt a.level).primes[i]? = some q →
        d.digit i = .ok (Poly.ofInts (ctx.basisAt a.level) (d.centred i)) ∧
        (d.centred i).length = ctx.degree ∧ ∀ v ∈ d.centred i, v.natAbs ≤ (q - 1) / 2 := by
  have sound := Context.sound_of_ofParams hctx
  obtain ⟨componentsA, σ, level⟩ := a
  obtain ⟨componentsB, τ, _⟩ := b
  obtain rfl : level = _ := hlevel
  obtain ⟨a0, a1, rfl⟩ := List.length_eq_two.mp sizeA
  obtain ⟨b0, b1, rfl⟩ := List.length_eq_two.mp sizeB
  have valid := sound.valid_basisAt level
  have small := ctx.isInitialOf_topBasis level
  have overA0 := ha.components a0 List.mem_cons_self
  have overA1 := ha.components a1 (List.mem_cons_of_mem _ List.mem_cons_self)
  have overB0 := hb.components b0 List.mem_cons_self
  have overB1 := hb.components b1 (List.mem_cons_of_mem _ List.mem_cons_self)
  obtain ⟨c0, c1, d, hc, over0, over1, hd, overD, image⟩ :=
    multiply_pair sound.valid valid small hs hsamples hkey overA0 overA1 overB0 overB1 hscale level
  have channels : range (ctx.basisAt level).primes.length = range (level + 1) :=
    congrArg range (Context.length_basisAt ha.level)
  rw [channels] at image
  refine ⟨⟨[c0, c1], σ * τ, level⟩, _, _, a1, b1, d, hc,
    Ciphertext.wellFormed_pair ha.level over0 over1 _, rfl, rfl, rfl,
    Ciphertext.decryptsTo_of_pair valid small hs overA0 overA1 σ level,
    Ciphertext.decryptsTo_of_pair valid small hs overB0 overB1 τ level, rfl, rfl, hd, ?_, ?_⟩
  · have decrypts := Ciphertext.decryptsTo_of_pair valid small hs over0 over1 (σ * τ) level
    rwa [image] at decrypts
  · intro i q hq
    have odd := sound.odd q (List.mem_of_mem_take (List.mem_of_getElem? hq))
    exact ⟨Ring.digit_ok overD hq, Ring.centred_le overD hq odd⟩

namespace Evaluator.Tiny

/-- A secret over both primes. -/
def secret : SecretKey :=
  .ofCoefficients Context.tiny.topBasis [1, 0, -1, 0]

/-- Samples for both digits. -/
def samples : List (Poly × List Int) :=
  [(.ofInts Context.tiny.topBasis [11, -7, 100, 3], [1, 0, -2, 0]),
    (.ofInts Context.tiny.topBasis [90, 4, -60, 17], [0, 1, 1, -1])]

/-- The evaluator of the key of the samples. -/
def evaluator : Evaluator :=
  ⟨Context.tiny, ⟨secret.poly, secret.poly⟩, (RelinKey.ofSamples secret samples).toOption.getD ⟨[]⟩⟩

/-- A ciphertext at the lower of the two levels. -/
def ciphertext (c0 c1 : List Int) : Ciphertext :=
  ⟨[.ofInts (Context.tiny.basisAt 0) c0, .ofInts (Context.tiny.basisAt 0) c1], .ofFloat 16, 0⟩

open Context (sound_tiny)

theorem isOver_secret : secret.poly.IsOver Context.tiny.topBasis :=
  sound_tiny.isOver_ofInts 1 rfl

theorem areSamples : RelinKey.AreSamples Context.tiny.topBasis samples where
  length := rfl
  each := by
    intro x hx
    rcases List.mem_cons.mp hx with rfl | hx
    · exact ⟨sound_tiny.isOver_ofInts 1 rfl, rfl⟩
    · rw [List.mem_singleton.mp hx]
      exact ⟨sound_tiny.isOver_ofInts 1 rfl, rfl⟩

theorem ofSamples : RelinKey.ofSamples secret samples = .ok evaluator.relinKey := by
  obtain ⟨key, hkey, -⟩ := RelinKey.ofSamples_ok sound_tiny.valid isOver_secret areSamples
  rw [evaluator, hkey]
  rfl

theorem wellFormed {c0 c1 : List Int} (h0 : c0.length = 4) (h1 : c1.length = 4) :
    (ciphertext c0 c1).WellFormed Context.tiny :=
  Ciphertext.wellFormed_pair Nat.zero_lt_two (sound_tiny.isOver_ofInts 0 h0)
    (sound_tiny.isOver_ofInts 0 h1) _

attribute [local instance] Primitives.coarse

/-- A product at the level below the one that the key was made at. -/
theorem multiply_decryptsTo_tiny :
    Context.ofParams Context.tiny.params = .ok Context.tiny ∧
    secret.poly.IsOver Context.tiny.topBasis ∧
    RelinKey.AreSamples Context.tiny.topBasis samples ∧
    RelinKey.ofSamples secret samples = .ok evaluator.relinKey ∧
    Scheme.scalesMatch (ciphertext [1, 2, 3, 4] [100, 5, 6, 7]).scale
      (ciphertext [0, 1, 3, 0] [5, 1, 2, 90]).scale = true ∧
    ∃ (c : Ciphertext) (x y : (Context.tiny.basisAt 0).Quotient) (a1 b1 d : Poly),
      evaluator.multiply (ciphertext [1, 2, 3, 4] [100, 5, 6, 7])
        (ciphertext [0, 1, 3, 0] [5, 1, 2, 90]) = .ok c ∧
      c.WellFormed Context.tiny ∧ c.size = 2 ∧ c.level = 0 ∧
      c.scale = Binary64.ofFloat 16 * Binary64.ofFloat 16 ∧
      (ciphertext [1, 2, 3, 4] [100, 5, 6, 7]).DecryptsTo secret (Context.tiny.basisAt 0) x ∧
      (ciphertext [0, 1, 3, 0] [5, 1, 2, 90]).DecryptsTo secret (Context.tiny.basisAt 0) y ∧
      (ciphertext [1, 2, 3, 4] [100, 5, 6, 7]).components[1]? = some a1 ∧
      (ciphertext [0, 1, 3, 0] [5, 1, 2, 90]).components[1]? = some b1 ∧
      a1.mul b1 = .ok d ∧
      c.DecryptsTo secret (Context.tiny.basisAt 0)
        (x * y + ∑ i ∈ range 1, (Context.tiny.basisAt 0).image (d.centred i) *
          (Context.tiny.basisAt 0).image (RelinKey.errorOf samples i)) ∧
      ∀ (i q : Nat), (Context.tiny.basisAt 0).primes[i]? = some q →
        d.digit i = .ok (Poly.ofInts (Context.tiny.basisAt 0) (d.centred i)) ∧
        (d.centred i).length = 4 ∧ ∀ v ∈ d.centred i, v.natAbs ≤ (q - 1) / 2 := by
  have scale : Scheme.scalesMatch (Binary64.ofFloat 16) (Binary64.ofFloat 16) = true := by
    decide +kernel
  exact ⟨Context.ofParams_tiny, isOver_secret, areSamples, ofSamples, scale,
    multiply_decryptsTo Context.ofParams_tiny isOver_secret areSamples ofSamples
      (wellFormed rfl rfl) (wellFormed rfl rfl) rfl rfl rfl scale⟩

end Evaluator.Tiny

end CipherFlow
