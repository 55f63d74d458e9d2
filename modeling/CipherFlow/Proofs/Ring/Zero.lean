import CipherFlow.Proofs.Scheme.Chain

/-!
# Computing with zero

Zero is neutral for sums and absorbing for products, also as it is stored: an
operation on ring elements that succeeds gives the very residues of the other
operand, or of zero. The same goes for the digits of zero and for its quotient
by the last prime.
-/

namespace CipherFlow.Ring

open CipherFlow (exists_of_bind_eq_ok)

variable {b target : Basis} {p p' r : Poly}

/-- Elements that are combined are over one basis. -/
theorem basis_eq_of_zipChannels {f : Nat → List Nat → List Nat → List Nat}
    (h : Poly.zipChannels f p p' = .ok r) : p.basis = p'.basis := by
  unfold Poly.zipChannels at h
  split at h
  · assumption
  · exact nomatch h

/-! ## Sums and products -/

section Arithmetic

variable (valid : b.Valid)

include valid

theorem eq_of_add_zero (hp : p.Reduced) (h : p.add (.zero b) = .ok r) : p.IsOver b ∧ r = p := by
  have isOver : p.IsOver b := ⟨basis_eq_of_zipChannels h, hp⟩
  obtain ⟨zero, zeroImage⟩ := zero_ok valid.pos
  obtain ⟨sum, hsum, overSum, image⟩ := add_ok isOver zero
  obtain rfl := Except.ok.inj (hsum.symm.trans h)
  refine ⟨isOver, eq_of_image_eq valid.degree_ne valid.one_lt overSum isOver ?_⟩
  rw [image b b.isInitialOf_self, zeroImage, add_zero]

theorem eq_of_zero_add (hp : p.Reduced) (h : (Poly.zero b).add p = .ok r) :
    p.IsOver b ∧ r = p := by
  have isOver : p.IsOver b := ⟨(basis_eq_of_zipChannels h).symm, hp⟩
  obtain ⟨zero, zeroImage⟩ := zero_ok valid.pos
  obtain ⟨sum, hsum, overSum, image⟩ := add_ok zero isOver
  obtain rfl := Except.ok.inj (hsum.symm.trans h)
  refine ⟨isOver, eq_of_image_eq valid.degree_ne valid.one_lt overSum isOver ?_⟩
  rw [image b b.isInitialOf_self, zeroImage, zero_add]

theorem zero_add_zero : (Poly.zero b).add (.zero b) = .ok (.zero b) := by
  have zero := (zero_ok valid.pos).1
  obtain ⟨sum, hsum, -, -⟩ := add_ok zero zero
  rw [hsum, (eq_of_zero_add valid zero.reduced hsum).2]

/-- A product with a factor zero. -/
theorem mul_zero_ok (hp : p.IsOver b) (hp' : p'.IsOver b) (factor : p = .zero b ∨ p' = .zero b) :
    p.mul p' = .ok (.zero b) := by
  obtain ⟨zero, zeroImage⟩ := zero_ok valid.pos
  obtain ⟨product, hproduct, overProduct, image⟩ := mul_ok valid.degree_ne hp hp'
  have same : product = .zero b := by
    refine eq_of_image_eq valid.degree_ne valid.one_lt overProduct zero ?_
    rw [image b b.isInitialOf_self]
    rcases factor with rfl | rfl
    · rw [zeroImage, zero_mul]
    · rw [zeroImage, mul_zero]
  rw [hproduct, same]

/-- So is a product that is only known to succeed, once one factor is zero. -/
theorem eq_zero_of_mul (hp : p.Reduced) (hp' : p'.Reduced)
    (factor : p = .zero b ∨ p' = .zero b) (h : p.mul p' = .ok r) : r = .zero b := by
  have same := basis_eq_of_zipChannels h
  have basis : p.basis = b := by
    rcases factor with rfl | rfl
    · rfl
    · exact same
  have product := mul_zero_ok valid ⟨basis, hp⟩ ⟨same.symm.trans basis, hp'⟩ factor
  exact Except.ok.inj (h.symm.trans product)

end Arithmetic

/-! ## Coefficients -/

theorem centre_zero (q : Nat) : Modular.centre 0 q = 0 := by
  simp [Modular.centre]

theorem ofInt_zero (q : Nat) : Modular.ofInt 0 q = 0 := by
  simp [Modular.ofInt]

/-- The element with zero coefficients. -/
theorem ofWide_zero {n : Nat} (length : n = b.degree) :
    Poly.ofWide b (List.replicate n 0) = .zero b := by
  have residue : ∀ q, Poly.residueOfWide 0 q = 0 := fun q => by
    rw [Poly.residueOfWide, if_pos (by decide), ofInt_zero]
  simp only [Poly.ofWide, Poly.zero, List.map_replicate, residue, length]

/-! ## Digits -/

theorem mem_channels_zero {c : List Nat} (h : c ∈ (Poly.zero b).channels) :
    c = List.replicate b.degree 0 := by
  obtain ⟨q, -, rfl⟩ := List.mem_map.mp h
  rfl

/-- The digits of zero are zero. -/
theorem digit_zero {index : Nat} (h : (Poly.zero b).digit index = .ok r) : r = .zero b := by
  unfold Poly.digit at h
  split at h
  · rename_i q c _ found
    obtain rfl := Except.ok.inj h
    obtain rfl := mem_channels_zero (List.mem_of_getElem? found)
    simp only [Poly.ofInts, Poly.zero, List.map_replicate, centre_zero, ofInt_zero]
  · cases h

/-! ## Fewer primes -/

/-- What is left of an element is reduced. -/
theorem isOver_of_dropTo (hp : p.Reduced) (h : p.dropTo target = .ok r) : r.IsOver target := by
  have small : target.isInitialOf p.basis = true := by
    unfold Poly.dropTo at h
    split at h
    · assumption
    · exact nomatch h
  obtain ⟨r', eq, isOver, -⟩ := dropTo_ok small ⟨rfl, hp⟩
  obtain rfl := Except.ok.inj (eq.symm.trans h)
  exact isOver

theorem divideChannel_zero (last q n : Nat) :
    Poly.divideChannel last (List.replicate n 0) q (List.replicate n 0) = List.replicate n 0 := by
  simp [Poly.divideChannel, Modular.sub, Modular.mul, ofInt_zero]

/-- The quotient of zero by the last prime. -/
theorem divideByLast_zero (h : (Poly.zero b).divideByLast target = .ok r) : r = .zero target := by
  unfold Poly.divideByLast at h
  by_cases single : (Poly.zero b).channelCount ≤ 1
  · rw [if_pos single] at h
    cases h
  rw [if_neg single] at h
  split at h
  · rename_i fits
    obtain rfl := Except.ok.inj h
    simp only [Bool.and_eq_true, decide_eq_true_eq] at fits
    obtain ⟨count, initial⟩ := fits
    have degree : target.degree = b.degree := degree_of_isInitialOf initial
    have last : (Poly.zero b).channels.getLastD [] = List.replicate b.degree 0 := by
      have some' : (Poly.zero b).channels ≠ [] := by
        intro none
        simp [Poly.channelCount, none] at single
      rw [List.getLastD_eq_getLast?, List.getLast?_eq_some_getLast some', Option.getD_some]
      exact mem_channels_zero (List.getLast_mem some')
    have length : target.primes.length ≤ b.primes.length := by
      rw [Basis.channelCount, Poly.channelCount, Poly.zero, List.length_map] at count
      omega
    rw [last, Poly.zero]
    congr 1
    refine List.ext_getElem (by simpa using length) ?_
    intro i hi hi'
    simp [divideChannel_zero, centre_zero, degree]
  · cases h

end CipherFlow.Ring
