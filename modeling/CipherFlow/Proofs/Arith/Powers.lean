import CipherFlow.Proofs.Arith.Words
import CipherFlow.Proofs.Ring.Evaluation
import Mathlib.Data.ZMod.Basic
import Mathlib.FieldTheory.Finite.Basic

/-!
# Powers of residues

Square-and-multiply gives the residue of the power, for every exponent. Modulo
a prime the power to the prime less two is an inverse.
-/

namespace CipherFlow

namespace Modular

open CipherFlow.Ring (cast_mod)

section Cast

variable {A : Type} [CommRing A] {m : Nat} (hm : (m : A) = 0)

include hm

/-- Each step takes one binary digit off the exponent. -/
theorem cast_powLoop {width exponent : Nat} (acc base : Nat) (lt : exponent < 2 ^ width) :
    ((powLoop m width acc base exponent : Nat) : A) = acc * base ^ exponent := by
  induction width generalizing acc base exponent with
  | zero =>
    obtain rfl : exponent = 0 := Nat.lt_one_iff.mp lt
    rw [powLoop, pow_zero, mul_one]
  | succ width ih =>
    have half : exponent / 2 < 2 ^ width := by
      rw [Nat.pow_succ] at lt
      omega
    have square : ((mul base base m : Nat) : A) = base ^ 2 := by
      rw [mul, cast_mod hm, Nat.cast_mul, sq]
    have split := Nat.mod_add_div exponent 2
    rw [powLoop, ih _ _ half, square, ← pow_mul]
    split
    · rename_i odd
      rw [odd] at split
      rw [mul, cast_mod hm, Nat.cast_mul, mul_assoc, ← pow_succ', Nat.add_comm, split]
    · rename_i even
      rw [show exponent % 2 = 0 by omega, Nat.zero_add] at split
      rw [split]

theorem cast_pow (base exponent : Nat) :
    ((pow base exponent m : Nat) : A) = base ^ exponent := by
  rw [pow, cast_powLoop hm _ _ Nat.lt_log2_self, cast_mod hm, cast_mod hm, Nat.cast_one, one_mul]

end Cast

theorem pow_lt {m : Nat} (pos : 0 < m) (base exponent : Nat) : pow base exponent m < m :=
  powLoop_lt (Nat.mod_lt 1 pos)

/-- The residue of the power. -/
theorem pow_eq {m : Nat} (pos : 0 < m) (base exponent : Nat) :
    pow base exponent m = base ^ exponent % m := by
  have cast := cast_pow (ZMod.natCast_self m) base exponent
  rw [← Nat.cast_pow, ZMod.natCast_eq_natCast_iff'] at cast
  rwa [Nat.mod_eq_of_lt (pow_lt pos base exponent)] at cast

/-- Fermat's inverse: what a prime does not divide is inverted. -/
theorem cast_inv_mul {q a : Nat} [Fact q.Prime] (nonzero : (a : ZMod q) ≠ 0) :
    ((Modular.inv a q : Nat) : ZMod q) * a = 1 := by
  have prime : q.Prime := Fact.out
  have exponent : q - 2 + 1 = q - 1 := by
    have := prime.two_le
    omega
  rw [inv, cast_pow (ZMod.natCast_self q), Ring.cast_mod (ZMod.natCast_self q), ← pow_succ,
    exponent, ZMod.pow_card_sub_one_eq_one nonzero]

end Modular

end CipherFlow
