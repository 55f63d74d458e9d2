import CipherFlow.Element.Handle
import CipherFlow.Proofs.Ring.Zero
import CipherFlow.Proofs.Scheme.Encryption
import CipherFlow.Proofs.Slots.Zeros
import CipherFlow.Scheme.Evaluator

/-!
# Ciphertexts of zeros

A ciphertext whose components are zero decrypts to zero under every key. It is
neutral for sums and absorbing for products, and stays zero on the way down
the chain. Sums with it may leave zeros behind the components of the other
summand, which decryption does not see.

Main lemmas: `padded_of_zero_add` and `padded_of_add_zero` for sums, `multiply_zero`
and `multiplyPlain_zero` for products, and `decrypt_padded`, by which the difference
does not show. A product is relinearised, and the digits of zero are zero, so the
keys do not come in (`switchKey_zero`).
-/

namespace CipherFlow

open CipherFlow.Ring (Basis Poly)

variable {b : Basis} {s : Poly} {cs rs : List Poly}

/-- The ciphertext of two components zero. -/
def Ciphertext.zero (b : Basis) (scale : Binary64) (level : Nat) : Ciphertext :=
  ⟨[.zero b, .zero b], scale, level⟩

/-- The components of another list with zeros behind them. Where there are any,
the others are over the basis of the zeros. -/
def Padded (b : Basis) (cs rs : List Poly) : Prop :=
  ∃ k, rs = cs ++ List.replicate k (.zero b) ∧ (k = 0 ∨ ∀ c ∈ cs, c.IsOver b)

namespace Padded

theorem refl (b : Basis) (cs : List Poly) : Padded b cs cs :=
  ⟨0, by simp, .inl rfl⟩

end Padded

/-! ## Encodings

Zeros of either sign are packed into numbers that are zero, and these are rounded to
the integer 0. -/

/-- Zero lanes that can be encoded are the zero polynomial. -/
theorem Context.encode_zeros {ctx : Context} {lanes : List Float}
    (zeros : Lanes.isAllZero lanes = true) {packing : Packing} {scale : Binary64} {level : Nat}
    {p : Plaintext} (h : ctx.encode lanes packing scale level = .ok p) :
    p = ⟨.zero (ctx.basisAt level), scale, level⟩ := by
  obtain ⟨basis, hbasis, h⟩ := exists_of_bind_eq_ok h
  obtain ⟨slots, hslots, h⟩ := exists_of_bind_eq_ok h
  obtain ⟨coeffs, hcoeffs, h⟩ := exists_of_bind_eq_ok h
  have hcoeffs := eq_ok_of_mapError hcoeffs
  have vanish : ∀ z ∈ slots, z.isZero = true := by
    rw [Slots.eq_slotsOf_of_pack (eq_ok_of_mapError hslots)]
    exact Packing.isZero_slotsOf (List.all_eq_true.mp zeros) packing _
  have coefficients : coeffs = List.replicate ctx.degree 0 := List.eq_replicate_iff.mpr
    ⟨Slots.Embedding.length_of_encode hcoeffs,
      Slots.Embedding.eq_zero_of_encode vanish hcoeffs⟩
  have degree : ctx.degree = (ctx.basisAt level).degree := rfl
  rw [← Except.ok.inj h, coefficients, eq_basisAt_of_basis hbasis, Ring.ofWide_zero degree]

/-! ## Decryption

The components are evaluated at the key by Horner's rule, from the last one down.
The value starts from zero, so it stays zero as long as the components do. -/

namespace Ciphertext

theorem evaluateAt_zeros (valid : b.Valid) (hs : s.IsOver b) (k : Nat) :
    evaluateAt s (List.replicate k (.zero b)) = .ok (.zero b) := by
  have zero := (Ring.zero_ok valid.pos).1
  induction k with
  | zero => rw [List.replicate_zero, evaluateAt, hs.basis]
  | succ k ih =>
    rw [List.replicate_succ, evaluateAt, ih]
    show (Poly.zero b).mul s >>= _ = _
    rw [Ring.mul_zero_ok valid zero hs (.inl rfl)]
    exact Ring.zero_add_zero valid

/-- Horner's rule starts from zero, and zeros at the end do not change that. -/
theorem evaluateAt_append_zeros (valid : b.Valid) (hs : s.IsOver b) (cs : List Poly) (k : Nat) :
    evaluateAt s (cs ++ List.replicate k (.zero b)) = evaluateAt s cs := by
  induction cs with
  | nil => rw [List.nil_append, evaluateAt_zeros valid hs, evaluateAt, hs.basis]
  | cons c cs ih => rw [List.cons_append, evaluateAt, ih, evaluateAt]

/-- Zeros behind the components of a ciphertext are not seen. -/
theorem decrypt_padded (valid : b.Valid) {a c : Ciphertext} (some' : a.components ≠ [])
    (padded : Padded b a.components c.components) {key : SecretKey} (hkey : key.poly.Reduced) :
    (a.decrypt key).map (·.poly) = (c.decrypt key).map (·.poly) := by
  obtain ⟨k, eq, isOver⟩ := padded
  unfold decrypt
  rw [eq]
  cases ha : a.components with
  | nil => exact absurd ha some'
  | cons first rest =>
    rw [ha] at isOver
    simp only [List.cons_append]
    cases hs : key.atBasis first.basis with
    | error e => rfl
    | ok s =>
      have same : evaluateAt s (first :: (rest ++ List.replicate k (.zero b))) =
          evaluateAt s (first :: rest) := by
        -- Without zeros behind there is nothing to show. With them the components have the
        -- basis of the key.
        rcases isOver with rfl | isOver
        · rw [List.replicate_zero, List.append_nil]
        · rw [(isOver first List.mem_cons_self).basis] at hs
          exact evaluateAt_append_zeros valid
            (Ring.isOver_of_dropTo hkey (eq_ok_of_mapError hs)) (first :: rest) k
      show (((evaluateAt s (first :: rest)).mapError _ >>= _).map _) =
        (((evaluateAt s (first :: (rest ++ _))).mapError _ >>= _).map _)
      rw [same]
      cases evaluateAt s (first :: rest) <;> rfl

/-- Zeros decrypt to zero under every key that has the primes of their
basis. -/
theorem decrypt_zeros (valid : b.Valid) {c : Ciphertext} {k : Nat}
    (zeros : c.components = List.replicate (k + 1) (.zero b)) {key : SecretKey}
    (hkey : key.poly.Reduced) (covers : b.isInitialOf key.poly.basis = true) :
    c.decrypt key = .ok ⟨.zero b, c.scale, c.level⟩ := by
  obtain ⟨s, hs, isOver, -⟩ := Ring.dropTo_ok covers ⟨rfl, hkey⟩
  have value := evaluateAt_zeros valid isOver (k + 1)
  rw [List.replicate_succ] at value zeros
  unfold decrypt
  rw [zeros]
  show (key.atBasis b).mapError _ >>= _ = _
  rw [SecretKey.atBasis, hs]
  show (evaluateAt s _).mapError _ >>= _ = _
  rw [value]
  rfl

/-- Other keys do not decrypt them. -/
theorem covers_of_decrypt {c : Ciphertext} {first : Poly} {rest : List Poly}
    (components : c.components = first :: rest) {key : SecretKey} {p : Plaintext}
    (h : c.decrypt key = .ok p) : first.basis.isInitialOf key.poly.basis = true := by
  unfold decrypt at h
  rw [components] at h
  obtain ⟨s, hs, -⟩ := exists_of_bind_eq_ok h
  have hs : key.poly.dropTo first.basis = .ok s := eq_ok_of_mapError (eq_ok_of_mapError hs)
  unfold Poly.dropTo at hs
  split at hs
  · assumption
  · exact nomatch hs

end Ciphertext

namespace Evaluator

variable {ev : Evaluator} {x y r : Ciphertext} {p : Plaintext} {scale : Binary64} {level : Nat}

/-! ## Sums

The shorter summand is added to the first components of the longer one. So it makes
a difference on which side the zeros are, and whether they are more than the
components of the other side. -/

/-- Zeros for the first components change none of them. -/
theorem addComponents_zeros (valid : b.Valid) (reduced : ∀ c ∈ cs, c.Reduced) {k : Nat}
    (h : addComponents cs (List.replicate k (.zero b)) = .ok rs) : rs = cs := by
  induction cs generalizing k rs with
  | nil =>
    rw [addComponents.eq_def] at h
    exact (Except.ok.inj h).symm
  | cons c cs ih =>
    cases k with
    | zero => exact (Except.ok.inj h).symm
    | succ k =>
      rw [List.replicate_succ, addComponents] at h
      obtain ⟨z, hz, h⟩ := exists_of_bind_eq_ok h
      obtain ⟨rest, hrest, h⟩ := exists_of_bind_eq_ok h
      obtain rfl := Except.ok.inj h
      rw [(Ring.eq_of_add_zero valid (reduced c List.mem_cons_self) hz).2,
        ih (fun d hd => reduced d (List.mem_cons_of_mem _ hd)) hrest]

/-- To zeros the other components are added one by one, and the zeros that are left stay
behind. -/
theorem padded_of_zeros_addComponents (valid : b.Valid) (reduced : ∀ c ∈ cs, c.Reduced) {k : Nat}
    (fits : cs.length ≤ k) (h : addComponents (List.replicate k (.zero b)) cs = .ok rs) :
    rs = cs ++ List.replicate (k - cs.length) (.zero b) ∧ ∀ c ∈ cs, c.IsOver b := by
  induction cs generalizing k rs with
  | nil =>
    rw [addComponents.eq_def] at h
    cases k with
    | zero => exact ⟨(Except.ok.inj h).symm, fun _ h => nomatch h⟩
    | succ k => exact ⟨(Except.ok.inj h).symm, fun _ h => nomatch h⟩
  | cons c cs ih =>
    cases k with
    | zero => exact absurd fits (Nat.not_succ_le_zero _)
    | succ k =>
      rw [List.replicate_succ, addComponents] at h
      obtain ⟨z, hz, h⟩ := exists_of_bind_eq_ok h
      obtain ⟨rest, hrest, h⟩ := exists_of_bind_eq_ok h
      obtain rfl := Except.ok.inj h
      obtain ⟨isOver, rfl⟩ := Ring.eq_of_zero_add valid (reduced c List.mem_cons_self) hz
      obtain ⟨rfl, others⟩ := ih (fun d hd => reduced d (List.mem_cons_of_mem _ hd))
        (Nat.le_of_succ_le_succ fits) hrest
      refine ⟨?_, List.forall_mem_cons.mpr ⟨isOver, others⟩⟩
      rw [List.length_cons, Nat.succ_sub_succ, List.cons_append]

/-- What a sum of ciphertexts is made of. -/
theorem add_eq_ok (h : ev.add x y = .ok r) :
    r.scale = x.scale ∧ r.level = x.level ∧
      ((y.size ≤ x.size ∧ addComponents x.components y.components = .ok r.components) ∨
        (x.size < y.size ∧ addComponents y.components x.components = .ok r.components)) := by
  obtain ⟨_, -, h⟩ := exists_of_bind_eq_ok h
  obtain ⟨_, -, h⟩ := exists_of_bind_eq_ok h
  dsimp only at h
  split at h
  · rename_i le
    obtain ⟨components, hc, h⟩ := exists_of_bind_eq_ok h
    obtain rfl := Except.ok.inj h
    exact ⟨rfl, rfl, .inl ⟨le, eq_ok_of_mapError hc⟩⟩
  · rename_i lt
    obtain ⟨components, hc, h⟩ := exists_of_bind_eq_ok h
    obtain rfl := Except.ok.inj h
    exact ⟨rfl, rfl, .inr ⟨Nat.lt_of_not_le lt, eq_ok_of_mapError hc⟩⟩

/-- A sum with zeros on the left has the components of the right. -/
theorem padded_of_zero_add (valid : b.Valid) (reduced : ∀ c ∈ y.components, c.Reduced)
    (h : ev.add (.zero b scale level) y = .ok r) :
    Padded b y.components r.components ∧ r.scale = scale ∧ r.level = level := by
  obtain ⟨hscale, hlevel, sum⟩ := add_eq_ok h
  refine ⟨?_, hscale, hlevel⟩
  rcases sum with ⟨fits, sum⟩ | ⟨-, sum⟩
  · obtain ⟨eq, isOver⟩ := padded_of_zeros_addComponents (k := 2) valid reduced fits sum
    exact ⟨_, eq, .inr isOver⟩
  · rw [addComponents_zeros (k := 2) valid reduced sum]
    exact .refl b _

/-- A sum with zeros on the right has the components of the left. -/
theorem padded_of_add_zero (valid : b.Valid) (reduced : ∀ c ∈ x.components, c.Reduced)
    (h : ev.add x (.zero b scale level) = .ok r) :
    Padded b x.components r.components ∧ r.scale = x.scale ∧ r.level = x.level := by
  obtain ⟨hscale, hlevel, sum⟩ := add_eq_ok h
  refine ⟨?_, hscale, hlevel⟩
  rcases sum with ⟨-, sum⟩ | ⟨fits, sum⟩
  · rw [addComponents_zeros (k := 2) valid reduced sum]
    exact .refl b _
  · obtain ⟨eq, isOver⟩ := padded_of_zeros_addComponents (k := 2) valid reduced fits.le sum
    exact ⟨_, eq, .inr isOver⟩

/-- Adding the zero polynomial changes nothing. -/
theorem eq_of_addPlain_zero (valid : b.Valid) (reduced : ∀ c ∈ x.components, c.Reduced)
    (h : ev.addPlain x ⟨.zero b, scale, level⟩ = .ok r) : r = x := by
  obtain ⟨_, -, h⟩ := exists_of_bind_eq_ok h
  obtain ⟨_, -, h⟩ := exists_of_bind_eq_ok h
  obtain ⟨components, σ, l⟩ := x
  cases components with
  | nil => exact nomatch h
  | cons c rest =>
    obtain ⟨z, hz, h⟩ := exists_of_bind_eq_ok h
    obtain rfl := Except.ok.inj h
    rw [(Ring.eq_of_add_zero valid (reduced c List.mem_cons_self) (eq_ok_of_mapError hz)).2]

/-! ## Products

All products with a zero are zero, so what is relinearised is zero, whatever the
keys are. -/

/-- Switching keys adds digits of zero to zeros. -/
theorem switchKey_zero (valid : b.Valid) {samples : List (Poly × Poly)}
    (isOver : ∀ k ∈ samples, k.1.IsOver b ∧ k.2.IsOver b) {index : Nat} {r : Poly × Poly}
    (h : switchKey (.zero b) index samples (.zero b) (.zero b) = .ok r) :
    r = (.zero b, .zero b) := by
  have zero := (Ring.zero_ok valid.pos).1
  induction samples generalizing index with
  | nil => exact (Except.ok.inj h).symm
  | cons k samples ih =>
    obtain ⟨kb, ka⟩ := k
    obtain ⟨overB, overA⟩ := isOver (kb, ka) List.mem_cons_self
    obtain ⟨digit, hdigit, h⟩ := exists_of_bind_eq_ok h
    obtain rfl := Ring.digit_zero hdigit
    obtain ⟨db, hdb, h⟩ := exists_of_bind_eq_ok h
    obtain rfl := Ring.eq_zero_of_mul valid zero.reduced overB.reduced (.inl rfl) hdb
    obtain ⟨c0, hc0, h⟩ := exists_of_bind_eq_ok h
    obtain rfl := (Ring.eq_of_zero_add valid zero.reduced hc0).2
    obtain ⟨da, hda, h⟩ := exists_of_bind_eq_ok h
    obtain rfl := Ring.eq_zero_of_mul valid zero.reduced overA.reduced (.inl rfl) hda
    obtain ⟨c1, hc1, h⟩ := exists_of_bind_eq_ok h
    obtain rfl := (Ring.eq_of_zero_add valid zero.reduced hc1).2
    exact ih (fun d hd => isOver d (List.mem_cons_of_mem _ hd)) h

theorem isOver_digitsAt {key : RelinKey} {digits : List (Poly × Poly)}
    (reduced : ∀ d ∈ key.digits, d.1.Reduced ∧ d.2.Reduced) (h : key.digitsAt b = .ok digits) :
    ∀ d ∈ digits, d.1.IsOver b ∧ d.2.IsOver b := by
  unfold RelinKey.digitsAt at h
  dsimp only at h
  split at h
  · exact nomatch h
  · intro d hd
    obtain ⟨k, hk, h⟩ := exists_of_mem_of_mapM_eq_ok h d hd
    obtain ⟨hb, ha⟩ := reduced k (List.mem_of_mem_take hk)
    obtain ⟨b', hb', h⟩ := exists_of_bind_eq_ok h
    obtain ⟨a', ha', h⟩ := exists_of_bind_eq_ok h
    obtain rfl := Except.ok.inj h
    exact ⟨Ring.isOver_of_dropTo hb (eq_ok_of_mapError hb'),
      Ring.isOver_of_dropTo ha (eq_ok_of_mapError ha')⟩

theorem relinearise_zero (valid : b.Valid)
    (hkey : ∀ d ∈ ev.relinKey.digits, d.1.Reduced ∧ d.2.Reduced) {r : Poly × Poly}
    (h : ev.relinearise (.zero b) (.zero b) (.zero b) = .ok r) : r = (.zero b, .zero b) := by
  obtain ⟨samples, hsamples, h⟩ := exists_of_bind_eq_ok h
  exact switchKey_zero valid (isOver_digitsAt hkey (eq_ok_of_mapError hsamples))
    (eq_ok_of_mapError h)

/-- A product with zeros on one side is of zeros. -/
theorem multiply_zero (valid : b.Valid)
    (hkey : ∀ d ∈ ev.relinKey.digits, d.1.Reduced ∧ d.2.Reduced)
    (reducedX : ∀ c ∈ x.components, c.Reduced) (reducedY : ∀ c ∈ y.components, c.Reduced)
    (factor : x.components = [.zero b, .zero b] ∨ y.components = [.zero b, .zero b])
    (h : ev.multiply x y = .ok r) : r = .zero b (x.scale * y.scale) x.level := by
  unfold multiply at h
  obtain ⟨_, -, h⟩ := exists_of_bind_eq_ok h
  obtain ⟨_, -, h⟩ := exists_of_bind_eq_ok h
  split at h
  · rename_i a0 a1 b0 b1 hx hy
    rw [hx] at factor reducedX
    rw [hy] at factor reducedY
    -- Each of the four products has a zero on the side of the zeros.
    have isZero : ∀ {c d product : Poly}, c ∈ [a0, a1] → d ∈ [b0, b1] → c.mul d = .ok product →
        product = .zero b := by
      intro c d product hc hd hproduct
      refine Ring.eq_zero_of_mul valid (reducedX c hc) (reducedY d hd) ?_ hproduct
      rcases factor with zeros | zeros
      · exact .inl (by simpa [zeros] using hc)
      · exact .inr (by simpa [zeros] using hd)
    obtain ⟨d0, h0, h⟩ := exists_of_bind_eq_ok h
    obtain ⟨cross, hcross, h⟩ := exists_of_bind_eq_ok h
    obtain ⟨cross', hcross', h⟩ := exists_of_bind_eq_ok h
    obtain ⟨d1, h1, h⟩ := exists_of_bind_eq_ok h
    obtain ⟨d2, h2, h⟩ := exists_of_bind_eq_ok h
    obtain rfl := isZero (by simp) (by simp) (eq_ok_of_mapError h0)
    obtain rfl := isZero (by simp) (by simp) (eq_ok_of_mapError hcross)
    obtain rfl := isZero (by simp) (by simp) (eq_ok_of_mapError hcross')
    obtain rfl := isZero (by simp) (by simp) (eq_ok_of_mapError h2)
    rw [Ring.zero_add_zero valid] at h1
    obtain rfl := Except.ok.inj h1
    -- All three components are zero now, and so the key switch is one of zeros.
    obtain ⟨c, hc, h⟩ := exists_of_bind_eq_ok h
    obtain rfl := relinearise_zero valid hkey hc
    exact (Except.ok.inj h).symm
  · exact nomatch h

/-- So is a product with a plaintext, if the components or the plaintext are
zero. -/
theorem multiplyPlain_zero (valid : b.Valid) (reduced : ∀ c ∈ x.components, c.Reduced)
    (hp : p.poly.Reduced) (factor : (∀ c ∈ x.components, c = .zero b) ∨ p.poly = .zero b)
    (h : ev.multiplyPlain x p = .ok r) :
    r = ⟨List.replicate x.size (.zero b), x.scale * p.scale, x.level⟩ := by
  obtain ⟨_, -, h⟩ := exists_of_bind_eq_ok h
  obtain ⟨components, products, h⟩ := exists_of_bind_eq_ok h
  have zeros : components = List.replicate x.size (.zero b) := by
    refine List.eq_replicate_iff.mpr ⟨length_of_mapM_eq_ok products, ?_⟩
    intro z hz
    obtain ⟨c, mem, hz⟩ := exists_of_mem_of_mapM_eq_ok products z hz
    exact Ring.eq_zero_of_mul valid (reduced c mem) hp (factor.imp_left fun all => all c mem)
      (eq_ok_of_mapError hz)
  rw [← Except.ok.inj h, zeros]

/-! ## Down the chain -/

theorem rescale_zero (h : ev.rescale (.zero b scale level) = .ok r) :
    ∃ q, ev.context.rescaleModulus level = some q ∧
      r = .zero (ev.context.basisAt (level - 1)) (scale / .ofNat q) (level - 1) := by
  unfold rescale at h
  split at h
  · exact nomatch h
  · rename_i q modulus
    obtain ⟨target, htarget, h⟩ := exists_of_bind_eq_ok h
    have basis := Context.eq_basisAt_of_basis htarget
    obtain ⟨components, quotients, h⟩ := exists_of_bind_eq_ok h
    have zeros : components = [.zero target, .zero target] := by
      refine List.eq_replicate_iff.mpr ⟨length_of_mapM_eq_ok quotients, ?_⟩
      intro z hz
      obtain ⟨c, mem, hz⟩ := exists_of_mem_of_mapM_eq_ok quotients z hz
      obtain rfl : c = .zero b := by simpa [Ciphertext.zero] using mem
      exact Ring.divideByLast_zero (eq_ok_of_mapError hz)
    refine ⟨q, modulus, ?_⟩
    rw [← Except.ok.inj h, zeros, basis]
    rfl

end Evaluator

end CipherFlow
