import CipherFlow.Proofs.Scheme.Keys

/-!
# Decryption

Decryption evaluates the components of a ciphertext at the secret. It succeeds
on every ciphertext over the basis of a level, and only the image of the
secret in the ring of that level matters.
-/

namespace CipherFlow

open CipherFlow.Ring (Basis Poly)

namespace Ciphertext

/-- The level is one of the chain, and the components are elements over its
basis. -/
structure WellFormed (ctx : Context) (c : Ciphertext) : Prop where
  level : c.level < ctx.primes.length
  components : ∀ p ∈ c.components, p.IsOver (ctx.basisAt c.level)

/-- Under a secret the ciphertext decrypts to an element with the given image,
and keeps its scale and its level. -/
def DecryptsTo (c : Ciphertext) (secret : SecretKey) (b : Basis) (x : b.Quotient) : Prop :=
  ∃ p, c.decrypt secret = .ok p ∧ p.scale = c.scale ∧ p.level = c.level ∧
    p.poly.IsOver b ∧ p.poly.image b = x

variable {B b : Basis} {s c0 c1 : Poly}

theorem wellFormed_pair {ctx : Context} {level : Nat} (lt : level < ctx.primes.length)
    (h0 : c0.IsOver (ctx.basisAt level)) (h1 : c1.IsOver (ctx.basisAt level))
    (scale : Binary64) : WellFormed ctx ⟨[c0, c1], scale, level⟩ :=
  ⟨lt, List.forall_mem_cons.mpr ⟨h0, List.forall_mem_singleton.mpr h1⟩⟩

/-- A sum over the components of a ciphertext, with the powers of a secret. -/
theorem sum_cons {A : Type} [CommRing A] (f : Poly → A) (x : A) (p : Poly) (rest : List Poly) :
    ∑ i : Fin (p :: rest).length, f (p :: rest)[i] * x ^ (i : Nat) =
      f p + (∑ i : Fin rest.length, f rest[i] * x ^ (i : Nat)) * x := by
  have split := Fin.sum_univ_succ fun i : Fin (rest.length + 1) => f (p :: rest)[i] * x ^ (i : Nat)
  simp only [Fin.val_zero, pow_zero, mul_one, Fin.val_succ, pow_succ, ← mul_assoc,
    ← Finset.sum_mul] at split
  exact split

/-- Horner's rule, in the ring of the basis and in those of fewer primes. -/
theorem evaluateAt_ok (valid : b.Valid) (hs : s.IsOver b) {components : List Poly}
    (h : ∀ c ∈ components, c.IsOver b) :
    ∃ r, evaluateAt s components = .ok r ∧ r.IsOver b ∧
      ∀ b' : Basis, b'.isInitialOf b = true →
        r.image b' =
          ∑ i : Fin components.length, components[i].image b' * s.image b' ^ (i : Nat) := by
  induction components with
  | nil =>
    rw [evaluateAt, hs.basis]
    exact ⟨_, rfl, (Ring.zero_ok valid.pos).1, fun b' small => Ring.image_zero small⟩
  | cons c rest ih =>
    obtain ⟨higher, hhigher, overHigher, imageHigher⟩ :=
      ih fun d hd => h d (List.mem_cons_of_mem _ hd)
    obtain ⟨product, hproduct, overProduct, imageProduct⟩ :=
      Ring.mul_ok valid.degree_ne overHigher hs
    obtain ⟨r, hr, overR, imageR⟩ := Ring.add_ok overProduct (h c List.mem_cons_self)
    refine ⟨r, ?_, overR, ?_⟩
    · rw [evaluateAt, hhigher]
      show higher.mul s >>= (·.add c) = _
      rw [hproduct]
      exact hr
    · intro b' small
      rw [imageR b' small, imageProduct b' small, imageHigher b' small, add_comm]
      exact (sum_cons (·.image b') _ c rest).symm

/-- The value at the secret, in the ring of a basis. -/
noncomputable def valueAt (c : Ciphertext) (secret : SecretKey) (b : Basis) : b.Quotient :=
  ∑ i : Fin c.components.length, c.components[i].image b * secret.poly.image b ^ (i : Nat)

theorem valueAt_cons (p : Poly) (rest : List Poly) (scale : Binary64) (level : Nat)
    (secret : SecretKey) (b : Basis) :
    valueAt ⟨p :: rest, scale, level⟩ secret b =
      p.image b + valueAt ⟨rest, scale, level⟩ secret b * secret.poly.image b :=
  sum_cons (·.image b) _ p rest

/-- The centred residues of the components modulo the prime of the level, as
one value at a secret. -/
noncomputable def remainderAt (c : Ciphertext) (secret : SecretKey) (b : Basis) : b.Quotient :=
  ∑ i : Fin c.components.length,
    b.image (c.components[i].centred c.level) * secret.poly.image b ^ (i : Nat)

theorem remainderAt_cons (p : Poly) (rest : List Poly) (scale : Binary64) (level : Nat)
    (secret : SecretKey) (b : Basis) :
    remainderAt ⟨p :: rest, scale, level⟩ secret b =
      b.image (p.centred level) +
        remainderAt ⟨rest, scale, level⟩ secret b * secret.poly.image b :=
  sum_cons (fun p => b.image (p.centred level)) _ p rest

/-- A ciphertext over a basis decrypts to its value at the secret. -/
theorem decrypt_ok (valid : b.Valid) (small : b.isInitialOf B = true) {secret : SecretKey}
    (hs : secret.poly.IsOver B) {c : Ciphertext} (some : c.components ≠ [])
    (h : ∀ d ∈ c.components, d.IsOver b) :
    ∃ p, c.decrypt secret = .ok p ∧ p.scale = c.scale ∧ p.level = c.level ∧ p.poly.IsOver b ∧
      ∀ b' : Basis, b'.isInitialOf b = true → p.poly.image b' = c.valueAt secret b' := by
  obtain ⟨components, scale, level⟩ := c
  obtain ⟨first, rest, rfl⟩ := List.exists_cons_of_ne_nil some
  obtain ⟨s, hdrop, overS, imageS⟩ := Ring.dropTo_ok small hs
  obtain ⟨r, hr, overR, imageR⟩ := evaluateAt_ok valid overS h
  refine ⟨⟨r, scale, level⟩, ?_, rfl, rfl, overR, ?_⟩
  · unfold decrypt
    show ((secret.atBasis first.basis).mapError _ >>= _) = _
    rw [(h first List.mem_cons_self).basis, SecretKey.atBasis, hdrop]
    show ((evaluateAt s (first :: rest)).mapError _ >>= _) = _
    rw [hr]
    rfl
  · intro b' small'
    rw [imageR b' small', imageS b' small', valueAt]

/-- A ciphertext of two components decrypts to `c0 + c1 * s`. -/
theorem decryptsTo_of_pair (valid : b.Valid) (small : b.isInitialOf B = true)
    {secret : SecretKey} (hs : secret.poly.IsOver B) (h0 : c0.IsOver b) (h1 : c1.IsOver b)
    (scale : Binary64) (level : Nat) :
    DecryptsTo ⟨[c0, c1], scale, level⟩ secret b
      (c0.image b + c1.image b * secret.poly.image b) := by
  have components : ∀ c ∈ [c0, c1], c.IsOver b :=
    List.forall_mem_cons.mpr ⟨h0, List.forall_mem_singleton.mpr h1⟩
  obtain ⟨p, hp, scaleEq, levelEq, isOver, image⟩ := decrypt_ok valid small hs
    (c := ⟨[c0, c1], scale, level⟩) (List.cons_ne_nil _ _) components
  refine ⟨p, hp, scaleEq, levelEq, isOver, ?_⟩
  have value := image b b.isInitialOf_self
  have sum : valueAt ⟨[c0, c1], scale, level⟩ secret b =
      c0.image b * secret.poly.image b ^ 0 + c1.image b * secret.poly.image b ^ 1 := by
    exact Fin.sum_univ_two _
  rw [value, sum, pow_zero, mul_one, pow_one]

end Ciphertext

end CipherFlow
