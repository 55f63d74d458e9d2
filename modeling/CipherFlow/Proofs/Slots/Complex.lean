import CipherFlow.Proofs.Slots.Transforms
import Mathlib.RingTheory.RootsOfUnity.Complex

/-!
# Slots over exact numbers

Over a commutative ring slots are a commutative ring, with the sum and product
that the transforms use, and conjugation is a ring homomorphism. Over the real
numbers they are the complex numbers, and cosine and sine give the powers of a
primitive root of unity.
-/

namespace CipherFlow

namespace Slot

theorem ext {α : Type} {x y : Slot α} (re : x.re = y.re) (im : x.im = y.im) : x = y := by
  cases x
  cases y
  cases re
  cases im
  rfl

/-! ## The ring of slots

Sum and product are those that transforms compute with. What holds in every ring
therefore holds of transforms as they are. -/

section Ring

variable {ρ : Type} [CommRing ρ]

instance : Zero (Slot ρ) := ⟨⟨0, 0⟩⟩

instance : One (Slot ρ) := ⟨⟨1, 0⟩⟩

instance : Neg (Slot ρ) := ⟨fun x => ⟨-x.re, -x.im⟩⟩

instance : NatCast (Slot ρ) := ⟨fun n => ⟨n, 0⟩⟩

@[simp] theorem zero_re : (0 : Slot ρ).re = 0 := rfl

@[simp] theorem zero_im : (0 : Slot ρ).im = 0 := rfl

@[simp] theorem one_re : (1 : Slot ρ).re = 1 := rfl

@[simp] theorem one_im : (1 : Slot ρ).im = 0 := rfl

@[simp] theorem natCast_re (n : Nat) : (n : Slot ρ).re = n := rfl

@[simp] theorem natCast_im (n : Nat) : (n : Slot ρ).im = 0 := rfl

@[simp] theorem add_re (x y : Slot ρ) : (x + y).re = x.re + y.re := rfl

@[simp] theorem add_im (x y : Slot ρ) : (x + y).im = x.im + y.im := rfl

@[simp] theorem mul_re (x y : Slot ρ) : (x * y).re = x.re * y.re - x.im * y.im := rfl

@[simp] theorem mul_im (x y : Slot ρ) : (x * y).im = x.re * y.im + x.im * y.re := rfl

instance : CommRing (Slot ρ) where
  add_assoc x y z := ext (add_assoc ..) (add_assoc ..)
  zero_add x := ext (zero_add _) (zero_add _)
  add_zero x := ext (add_zero _) (add_zero _)
  add_comm x y := ext (add_comm ..) (add_comm ..)
  neg_add_cancel x := ext (neg_add_cancel _) (neg_add_cancel _)
  sub_eq_add_neg x y := ext (sub_eq_add_neg ..) (sub_eq_add_neg ..)
  mul_assoc x y z := by apply ext <;> simp only [mul_re, mul_im] <;> ring
  mul_comm x y := by apply ext <;> simp only [mul_re, mul_im] <;> ring
  one_mul x := by apply ext <;> simp
  mul_one x := by apply ext <;> simp
  left_distrib x y z := by apply ext <;> simp only [mul_re, mul_im, add_re, add_im] <;> ring
  right_distrib x y z := by apply ext <;> simp only [mul_re, mul_im, add_re, add_im] <;> ring
  zero_mul x := by apply ext <;> simp
  mul_zero x := by apply ext <;> simp
  natCast_zero := ext Nat.cast_zero rfl
  natCast_succ n := ext (Nat.cast_succ n) (add_zero 0).symm
  nsmul := nsmulRec
  zsmul := zsmulRec

/-- Conjugation as a ring homomorphism. -/
def conjugation : Slot ρ →+* Slot ρ where
  toFun := conj
  map_one' := ext rfl neg_zero
  map_mul' x y := by apply ext <;> simp only [conj, mul_re, mul_im] <;> ring
  map_zero' := ext rfl neg_zero
  map_add' x y := ext rfl (neg_add ..)

theorem conj_conj (x : Slot ρ) : x.conj.conj = x :=
  ext rfl (neg_neg _)

end Ring

/-! ## Complex numbers -/

/-- Slots of real numbers are the complex numbers. -/
def complexEquiv : Slot ℝ ≃+* ℂ where
  toFun x := ⟨x.re, x.im⟩
  invFun z := ⟨z.re, z.im⟩
  left_inv _ := rfl
  right_inv _ := rfl
  map_mul' x y := by apply Complex.ext <;> simp
  map_add' x y := by apply Complex.ext <;> simp

instance : IsDomain (Slot ℝ) :=
  complexEquiv.toMulEquiv.isDomain ℂ

/-- What is its own conjugate is real. -/
theorem im_eq_zero_of_conj {x : Slot ℝ} (h : x.conj = x) : x.im = 0 := by
  have im : -x.im = x.im := congrArg Slot.im h
  linarith

end Slot

namespace Fourier

open Real (pi)

/-- The root of unity at `j / n` of a full turn. -/
noncomputable def exactRoot (n j : Nat) : Slot ℝ :=
  ⟨Real.cos (2 * pi * j / n), Real.sin (2 * pi * j / n)⟩

/-- Angles add up, and half a turn changes the sign: this is all that a transform uses of
its roots. -/
theorem isRoot_exactRoot : IsRoot exactRoot where
  zero n := by apply Slot.ext <;> simp [exactRoot]
  add n i j := by
    have sum : 2 * pi * (i + j : Nat) / n = 2 * pi * i / n + 2 * pi * j / n := by
      push_cast
      ring
    apply Slot.ext
    · simp only [exactRoot, sum, Real.cos_add, Slot.mul_re]
    · simp only [exactRoot, sum, Real.sin_add, Slot.mul_im]
      ring
  double n j := by
    have same : 2 * pi * (2 * j : Nat) / (2 * n : Nat) = 2 * pi * j / n := by
      push_cast
      rw [mul_left_comm, mul_div_mul_left _ _ two_ne_zero]
    simp only [exactRoot, same]
  half k := by
    have half : 2 * pi * (2 ^ k : Nat) / (2 ^ (k + 1) : Nat) = pi := by
      push_cast
      field_simp
      ring
    apply Slot.ext
    · rw [exactRoot, half, Real.cos_pi]
      rfl
    · rw [exactRoot, half, Real.sin_pi]
      exact neg_zero.symm

/-- Conjugates are inverses. -/
theorem exactRoot_mul_conj (n j : Nat) : exactRoot n j * (exactRoot n j).conj = 1 := by
  apply Slot.ext
  · have one := Real.cos_sq_add_sin_sq (2 * pi * j / n)
    simp only [exactRoot, Slot.conj, Slot.mul_re, Slot.one_re]
    linarith
  · simp only [exactRoot, Slot.conj, Slot.mul_im, Slot.one_im]
    ring

theorem isRoot_conj : IsRoot fun n j => (exactRoot n j).conj where
  zero n := by
    rw [isRoot_exactRoot.zero]
    exact map_one Slot.conjugation
  add n i j := by
    rw [isRoot_exactRoot.add]
    exact map_mul Slot.conjugation _ _
  double n j := by rw [isRoot_exactRoot.double]
  half k := by
    rw [isRoot_exactRoot.half]
    exact (map_neg Slot.conjugation 1).trans (congrArg _ (map_one Slot.conjugation))

/-- Among complex numbers these are the powers of a primitive root. -/
theorem complexEquiv_exactRoot (n j : Nat) :
    Slot.complexEquiv (exactRoot n j) = Complex.exp (2 * pi * Complex.I / n) ^ j := by
  have angle : (j : ℂ) * (2 * pi * Complex.I / n) = (2 * pi * j / n : ℝ) * Complex.I := by
    push_cast
    ring
  rw [← Complex.exp_nat_mul, angle]
  apply Complex.ext
  · exact (Complex.exp_ofReal_mul_I_re _).symm
  · exact (Complex.exp_ofReal_mul_I_im _).symm

/-- The powers of the root below its order differ. -/
theorem exactRoot_injective {n i j : Nat} (hi : i < n) (hj : j < n)
    (h : exactRoot n i = exactRoot n j) : i = j := by
  have primitive := Complex.isPrimitiveRoot_exp n (Nat.ne_zero_of_lt hi)
  refine primitive.pow_inj hi hj ?_
  rw [← complexEquiv_exactRoot, ← complexEquiv_exactRoot, h]

end Fourier

end CipherFlow
