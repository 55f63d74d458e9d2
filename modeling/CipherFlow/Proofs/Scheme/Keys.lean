import CipherFlow.Proofs.Scheme.Chain
import CipherFlow.Scheme.Encryption

/-!
# What keys hide

A pair `(b, a)` of ring elements hides `b + a * s` from those who do not know
the secret `s`. A public key hides its error. A digit of a relinearisation
key hides its error and the square of the secret, the latter in the channel
of the digit alone. All of this stays so when primes are left out.

Main lemmas: `PublicKey.ofSamples_ok`, `RelinKey.ofSamples_ok` and
`RelinKey.digitsAt_ok`. What a key hides is an element of the ring of every basis of
fewer primes at once, so that a statement about a key at the top need not be carried
to each level.
-/

namespace CipherFlow

open CipherFlow.Ring (Basis Poly IsChannel)

variable {B b : Basis} {s a p : Poly} {e : List Int}

/-! ## Pairs -/

/-- The pair hides the given element of the ring of every basis of fewer
primes. -/
structure Key.Hides (B : Basis) (s : Poly) (hidden : (b : Basis) → b.Quotient)
    (k : Poly × Poly) : Prop where
  isOver : k.1.IsOver B ∧ k.2.IsOver B
  phase : ∀ b : Basis, b.isInitialOf B = true →
    k.1.image b + k.2.image b * s.image b = hidden b

/-- A sample of the secret hides its error. -/
theorem Key.sample_ok (valid : B.Valid) (hs : s.IsOver B) (ha : a.IsOver B)
    (he : e.length = B.degree) :
    ∃ b, Key.sample s a e = .ok (b, a) ∧ Key.Hides B s (·.image e) (b, a) := by
  obtain ⟨product, hproduct, overProduct, imageProduct⟩ := Ring.mul_ok valid.degree_ne ha hs
  obtain ⟨b, hb, overB, imageB⟩ :=
    Ring.sub_ok (Ring.isOver_ofInts valid.pos he) overProduct
  refine ⟨b, ?_, ⟨overB, ha⟩, fun b' small => ?_⟩
  · rw [Key.sample, hproduct, hs.basis]
    show (Poly.promised ((Poly.ofInts B e).sub product)).mapError _ >>= _ = _
    rw [hb]
    rfl
  · rw [imageB b' small, Ring.image_ofInts valid.pos small, imageProduct b' small]
    exact sub_add_cancel _ _

theorem PublicKey.ofSamples_ok (valid : B.Valid) {secret : SecretKey}
    (hs : secret.poly.IsOver B) (ha : a.IsOver B) (he : e.length = B.degree) :
    ∃ key, PublicKey.ofSamples secret a e = .ok key ∧
      Key.Hides B secret.poly (·.image e) (key.b, key.a) := by
  obtain ⟨b, hb, hides⟩ := Key.sample_ok valid hs ha he
  refine ⟨⟨b, a⟩, ?_, hides⟩
  rw [PublicKey.ofSamples, hb]
  rfl

/-- Both components over fewer primes. -/
theorem PublicKey.atBasis_ok {hidden : (b : Basis) → b.Quotient} {k : Poly × Poly}
    (small : b.isInitialOf B = true) (h : Key.Hides B s hidden k) :
    ∃ b' a', PublicKey.atBasis ⟨k.1, k.2⟩ b = .ok (b', a') ∧ b'.IsOver b ∧ a'.IsOver b ∧
      b'.image b + a'.image b * s.image b = hidden b := by
  obtain ⟨b', hb, overB, imageB⟩ := Ring.dropTo_ok small h.isOver.1
  obtain ⟨a', ha, overA, imageA⟩ := Ring.dropTo_ok small h.isOver.2
  refine ⟨b', a', ?_, overB, overA, ?_⟩
  · rw [PublicKey.atBasis, hb, ha]
    rfl
  · rw [imageB b b.isInitialOf_self, imageA b b.isInitialOf_self]
    exact h.phase b small

/-! ## Digits -/

/-- An element of the ring of a basis with all channels but one put to zero. -/
noncomputable def Ring.Basis.only (b : Basis) (index : Nat) (x : b.Quotient) : b.Quotient :=
  fun i => if i.val = index then x i else 0

theorem RelinKey.channel_mask {p : Poly} {index i : Nat} {c : List Nat}
    (hc : p.channels[i]? = some c) :
    (mask p index).channels[i]? = some (if i = index then c else c.map fun _ => 0) := by
  rw [mask, List.getElem?_map, List.getElem?_zipIdx, hc]
  simp

/-- A masked element is zero in all channels but one. -/
theorem RelinKey.mask_ok (valid : B.Valid) (hp : p.IsOver B) (index : Nat) :
    (mask p index).IsOver B ∧ ∀ b : Basis, b.isInitialOf B = true →
      (mask p index).image b = b.only index (p.image b) := by
  have channel : ∀ (i q : Nat), B.primes[i]? = some q → (mask p index).channels[i]? =
      some (if i = index then p.channel i else (p.channel i).map fun _ => 0) :=
    fun i q hq => channel_mask (hp.channel hq).2
  constructor
  · have basis : mask p index = ⟨B, (mask p index).channels⟩ := by
      rw [← hp.basis]
      rfl
    have length : (mask p index).channels.length = B.primes.length := by
      rw [← hp.basis, ← hp.reduced.length_channels]
      simp [mask]
    rw [basis]
    -- Channel by channel: one is as it was, and the others are zeros, which are reduced.
    refine Ring.Poly.isOver_of_channel length ?_
    intro i q c hq hc
    obtain rfl := Option.some.inj ((channel i q hq).symm.trans hc)
    have own := (hp.channel hq).1
    split
    · exact own
    · refine ⟨by rw [List.length_map, own.length], ?_⟩
      intro r hr
      obtain ⟨_, -, rfl⟩ := List.mem_map.mp hr
      exact valid.pos q (List.mem_of_getElem? hq)
  · intro b small
    funext i
    have eq := channel i _ (Ring.prime_of_isInitialOf small i)
    simp only [Poly.image, Basis.only]
    rw [Ring.Poly.channel, List.getD_eq_getElem?_getD, eq, Option.getD_some]
    split
    · rfl
    · exact Ring.evaluateAt_map_zero _

/-- What a digit hides. -/
noncomputable def RelinKey.hidden (s : Poly) (index : Nat) (e : List Int) (b : Basis) :
    b.Quotient :=
  b.image e + b.only index (s.image b * s.image b)

theorem RelinKey.digitOf_ok (valid : B.Valid) {square : Poly} (hs : s.IsOver B)
    (hsquare : square.IsOver B)
    (image : ∀ b : Basis, b.isInitialOf B = true → square.image b = s.image b * s.image b)
    (ha : a.IsOver B) (he : e.length = B.degree) (index : Nat) :
    ∃ d, digitOf s square index a e = .ok d ∧ Key.Hides B s (hidden s index e) d := by
  obtain ⟨b, hb, hides⟩ := Key.sample_ok valid hs ha he
  obtain ⟨overMask, imageMask⟩ := mask_ok valid hsquare index
  obtain ⟨r, hr, overR, imageR⟩ := Ring.add_ok hides.isOver.1 overMask
  refine ⟨(r, a), ?_, ⟨overR, ha⟩, fun b' small => ?_⟩
  · rw [digitOf, hb]
    show (Poly.promised (b.add (mask square index))).mapError _ >>= _ = _
    rw [hr]
    rfl
  · rw [imageR b' small, imageMask b' small, image b' small, hidden, ← hides.phase b' small]
    exact add_right_comm _ _ _

/-! ## Relinearisation keys -/

/-- Samples for the digits of a key: for each prime a ring element and an
error polynomial. -/
structure RelinKey.AreSamples (B : Basis) (samples : List (Poly × List Int)) : Prop where
  length : samples.length = B.primes.length
  each : ∀ x ∈ samples, x.1.IsOver B ∧ x.2.length = B.degree

/-- The error polynomial of a digit. -/
def RelinKey.errorOf (samples : List (Poly × List Int)) (index : Nat) : List Int :=
  (samples.map Prod.snd).getD index []

/-- The digits of a key, each with what it hides. -/
theorem RelinKey.ofSamples_ok (valid : B.Valid) {secret : SecretKey}
    (hs : secret.poly.IsOver B) {samples : List (Poly × List Int)}
    (h : AreSamples B samples) :
    ∃ key, ofSamples secret samples = .ok key ∧ key.digits.length = B.primes.length ∧
      ∀ (i : Nat) (d : Poly × Poly), key.digits[i]? = some d →
        Key.Hides B secret.poly (hidden secret.poly i (errorOf samples i)) d := by
  obtain ⟨square, hsquare, overSquare, imageSquare⟩ := Ring.mul_ok valid.degree_ne hs hs
  have each : ∀ (i : Nat) (x : (Poly × List Int) × Nat), samples.zipIdx[i]? = some x →
      ∃ d, digitOf secret.poly square x.2 x.1.1 x.1.2 = .ok d ∧
        Key.Hides B secret.poly (hidden secret.poly i (errorOf samples i)) d := by
    rintro i ⟨⟨a, e⟩, index⟩ hx
    rw [List.getElem?_zipIdx] at hx
    obtain ⟨⟨a, e⟩, hsample, eq⟩ := Option.map_eq_some_iff.mp hx
    obtain ⟨⟨rfl, rfl⟩, rfl⟩ : ((_ = _) ∧ (_ = _)) ∧ 0 + i = index := by
      simpa only [Prod.mk.injEq] using eq
    obtain ⟨ha, he⟩ := h.each _ (List.mem_of_getElem? hsample)
    have error : errorOf samples i = e := by
      rw [errorOf, List.getD_eq_getElem?_getD, List.getElem?_map, hsample]
      rfl
    rw [error, Nat.zero_add]
    exact digitOf_ok valid hs overSquare imageSquare ha he i
  obtain ⟨digits, hdigits, length, hides⟩ := mapM_ok each
  refine ⟨⟨digits⟩, ?_, ?_, hides⟩
  · rw [ofSamples, hsquare]
    show samples.zipIdx.mapM (m := Except Key.Error) _ >>= _ = _
    rw [hdigits]
    rfl
  · rw [length, List.length_zipIdx, h.length]

/-- The digits of the primes of a level, over that level. -/
theorem RelinKey.digitsAt_ok {key : RelinKey} {hidden : Nat → (b : Basis) → b.Quotient}
    (small : b.isInitialOf B = true) (length : b.primes.length ≤ key.digits.length)
    (hides : ∀ (i : Nat) (d : Poly × Poly), key.digits[i]? = some d →
      Key.Hides B s (hidden i) d) :
    ∃ digits, key.digitsAt b = .ok digits ∧ digits.length = b.primes.length ∧
      ∀ (i : Nat) (d : Poly × Poly), digits[i]? = some d → d.1.IsOver b ∧ d.2.IsOver b ∧
        d.1.image b + d.2.image b * s.image b = hidden i b := by
  have each : ∀ (i : Nat) (d : Poly × Poly), (key.digits.take b.channelCount)[i]? = some d →
      ∃ d', PublicKey.atBasis ⟨d.1, d.2⟩ b = .ok d' ∧ d'.1.IsOver b ∧ d'.2.IsOver b ∧
        d'.1.image b + d'.2.image b * s.image b = hidden i b := by
    intro i d hd
    rw [List.getElem?_take] at hd
    split at hd
    · obtain ⟨b', a', eq, facts⟩ := PublicKey.atBasis_ok small (hides i d hd)
      exact ⟨(b', a'), eq, facts⟩
    · exact nomatch hd
  obtain ⟨digits, hdigits, length', facts⟩ := mapM_ok each
  refine ⟨digits, ?_, ?_, facts⟩
  · have enough : ¬key.digits.length < b.channelCount := Nat.not_lt.mpr length
    rw [digitsAt, if_neg enough]
    exact hdigits
  · rw [length', List.length_take, Basis.channelCount, Nat.min_eq_left length]

/-! ## Keys over a basis -/

/-- Both components are over the basis. -/
structure PublicKey.IsOver (B : Basis) (k : PublicKey) : Prop where
  b : k.b.IsOver B
  a : k.a.IsOver B

/-- There is a digit for each prime, and all digits are over the basis. -/
structure RelinKey.IsOver (B : Basis) (k : RelinKey) : Prop where
  length : k.digits.length = B.primes.length
  digits : ∀ d ∈ k.digits, d.1.IsOver B ∧ d.2.IsOver B

/-- A pair of elements hides its value at whatever secret. -/
theorem Key.hides_of_isOver {k : Poly × Poly} (isOver : k.1.IsOver B ∧ k.2.IsOver B) (s : Poly) :
    Key.Hides B s (fun b => k.1.image b + k.2.image b * s.image b) k :=
  ⟨isOver, fun _ _ => rfl⟩

theorem PublicKey.IsOver.hides {key : PublicKey} (h : key.IsOver B) (s : Poly) :
    ∃ hidden, Key.Hides B s hidden (key.b, key.a) :=
  ⟨_, Key.hides_of_isOver ⟨h.b, h.a⟩ s⟩

theorem RelinKey.IsOver.hides {key : RelinKey} (h : key.IsOver B) (s : Poly) :
    ∃ hidden : Nat → (b : Basis) → b.Quotient, ∀ (i : Nat) (d : Poly × Poly),
      key.digits[i]? = some d → Key.Hides B s (hidden i) d := by
  refine ⟨fun i b => ((key.digits.getD i (s, s)).1.image b) +
    ((key.digits.getD i (s, s)).2.image b) * s.image b, fun i d hd => ?_⟩
  have digit : key.digits.getD i (s, s) = d := by
    rw [List.getD_eq_getElem?_getD, hd, Option.getD_some]
  simp only [digit]
  exact Key.hides_of_isOver (h.digits d (List.mem_of_getElem? hd)) s

end CipherFlow
