import CipherFlow.Proofs.Number.Forms
import CipherFlow.Proofs.Ring.Image
import CipherFlow.Proofs.Scheme.Chain

/-!
# Coefficients given as numbers

A coefficient below the wide bound is stored as its residues. A wide one is
reduced modulo the number that a prime is as a `Float`, and a prime of more
than fifty-three bits is none: the channels of such a basis do not hold one
polynomial. This module says when they do, and shows that the others fail.

`ofFloats_exact_iff` is the condition, on the numbers or on the basis, and
`ofFloats_inexact_wideBasis` has a number for which it fails.

How the proof goes. A prime of at most fifty-three bits is its own `Float`
(`nearestFloat_of_lt`). A wider one is cut to a number that it does not divide, nor
any multiple of it by a power of two (`not_dvd_nearestFloat`). Such a multiple can
be given as a number, and is stored as zero (`exists_residueOfWide_ne`).
-/

namespace CipherFlow

namespace Binary64

/-- A number that is an integer: its mantissa, scaled, is the integer. -/
def IsInteger (x : Float) (v : Int) : Prop :=
  ∃ negative mantissa exponent, value x = .finite negative mantissa exponent ∧
    signed negative mantissa * 2 ^ exponent.toNat = v * 2 ^ (-exponent).toNat

/-- The integer part of an integer is that integer. -/
theorem IsInteger.truncate {x : Float} {v : Int} (h : IsInteger x v) : truncate x = v := by
  obtain ⟨negative, mantissa, exponent, value, eq⟩ := h
  have magnitude :
      mantissa * Nat.pow 2 exponent.toNat = v.natAbs * Nat.pow 2 (-exponent).toNat := by
    have abs := congrArg Int.natAbs eq
    rw [Int.natAbs_mul, Int.natAbs_mul, Int.natAbs_pow, Int.natAbs_pow] at abs
    cases negative
    · exact abs
    · rwa [signed, if_pos rfl, Int.natAbs_neg] at abs
  have whole : wholePart mantissa exponent = v.natAbs := by
    rw [wholePart, magnitude]
    exact Nat.mul_div_cancel _ (Nat.two_pow_pos _)
  have power : (0 : Int) < 2 ^ (-exponent).toNat := Int.pow_pos (by decide)
  have power' : (0 : Int) < 2 ^ exponent.toNat := Int.pow_pos (by decide)
  rw [Binary64.truncate, value]
  show signed negative (wholePart mantissa exponent) = v
  rw [whole]
  cases negative
  · have nonneg : 0 ≤ v := by
      refine nonneg_of_mul_nonneg_left ?_ power
      rw [← eq]
      exact mul_nonneg (Int.natCast_nonneg mantissa) power'.le
    exact Int.natAbs_of_nonneg nonneg
  · have nonpos : v ≤ 0 := by
      refine nonpos_of_mul_nonpos_left ?_ power
      rw [← eq]
      exact mul_nonpos_of_nonpos_of_nonneg (Int.neg_nonpos_of_nonneg (Int.natCast_nonneg mantissa))
        power'.le
    show -(v.natAbs : Int) = v
    omega

/-- All numbers with fifty-three digits before a few zeros are integers. -/
theorem exists_isInteger {m k : Nat} (h : IsNormal m k) : ∃ x, IsInteger x (m * 2 ^ k : Nat) := by
  obtain ⟨x, hx⟩ := exists_value h
  refine ⟨x, false, m, k, hx, ?_⟩
  rw [Int.toNat_natCast, Int.toNat_neg_natCast, Int.pow_zero, Int.mul_one]
  push_cast
  rfl

theorem isInteger_zero : IsInteger 0 0 :=
  ⟨false, 0, -1074, rfl, (Int.zero_mul _).trans (Int.zero_mul _).symm⟩

/-! ## Primes as numbers -/

variable {q : Nat}

/-- A number of at most fifty-three bits is a `Float`. -/
theorem nearestFloat_of_lt (h : q < 2 ^ 53) : nearestFloat q = q := by
  have log : q.log2 - 52 = 0 := by
    by_cases zero : q = 0
    · rw [zero, Nat.log2_zero]
    · have := (Nat.log2_lt zero).mpr h
      omega
  unfold nearestFloat
  rw [log]
  show (if 1 < 2 * (q % 1) ∨ (1 = 2 * (q % 1) ∧ _) then _ else q / 1) * 1 = q
  rw [if_neg (by omega), Nat.div_one, Nat.mul_one]

/-- A wider one is cut to fifty-three bits, and changed by less than itself. -/
theorem nearestFloat_of_le (h : 2 ^ 53 ≤ q) :
    ∃ r, 2 ^ 52 ≤ r ∧ r ≤ 2 ^ 53 ∧ nearestFloat q = r * 2 ^ (q.log2 - 52) ∧
      r * 2 ^ (q.log2 - 52) < 2 * q := by
  have log : 53 ≤ q.log2 := (Nat.le_log2 (by omega)).mpr h
  obtain ⟨k, hk⟩ : ∃ k, q.log2 = 52 + k := ⟨q.log2 - 52, by omega⟩
  obtain ⟨lower, upper⟩ := (Nat.log2_eq_iff (by omega)).mp hk
  have width : q.log2 - 52 = k := by omega
  have unit : 0 < 2 ^ k := Nat.two_pow_pos k
  have least : 2 ^ 52 ≤ q / 2 ^ k := by
    rw [Nat.le_div_iff_mul_le unit, ← Nat.pow_add]
    exact lower
  have most : q / 2 ^ k < 2 ^ 53 := by
    rw [Nat.div_lt_iff_lt_mul unit, ← Nat.pow_add]
    exact upper.trans_eq (congrArg (2 ^ ·) (by omega))
  have near : (q / 2 ^ k + 1) * 2 ^ k < 2 * q := by
    have kept : q / 2 ^ k * 2 ^ k ≤ q := Nat.div_mul_le_self _ _
    have small : 2 ^ k < q :=
      (Nat.pow_lt_pow_right one_lt_two (by omega : k < 52 + k)).trans_le lower
    rw [Nat.add_mul, Nat.one_mul]
    omega
  unfold nearestFloat
  rw [width]
  dsimp only
  split
  · exact ⟨q / 2 ^ k + 1, by omega, by omega, rfl, near⟩
  · exact ⟨q / 2 ^ k, least, most.le, rfl, (Nat.mul_le_mul_right _ (Nat.le_succ _)).trans_lt near⟩

/-- An odd number that is cut does not divide what is left, nor that times a
power of two. -/
theorem not_dvd_nearestFloat (odd : q % 2 = 1) (h : 2 ^ 53 ≤ q) (j : Nat) :
    ¬q ∣ nearestFloat q * 2 ^ j := by
  intro dvd
  obtain ⟨r, least, -, eq, near⟩ := nearestFloat_of_le h
  have log : 53 ≤ q.log2 := (Nat.le_log2 (by omega)).mpr h
  have coprime : Nat.Coprime q (2 ^ j) :=
    Nat.Coprime.pow_right j (Nat.coprime_two_right.mpr (Nat.odd_iff.mpr odd))
  obtain ⟨t, ht⟩ := coprime.dvd_of_dvd_mul_right dvd
  rw [eq] at ht
  have pos : 0 < r * 2 ^ (q.log2 - 52) := Nat.mul_pos (by omega) (Nat.two_pow_pos _)
  have one : t = 1 := by
    have lt : q * t < q * 2 := by rw [← ht, Nat.mul_comm q]; exact near
    have lt2 := Nat.lt_of_mul_lt_mul_left lt
    have ne : t ≠ 0 := by
      rintro rfl
      omega
    omega
  have even : 2 ∣ r * 2 ^ (q.log2 - 52) :=
    Dvd.dvd.mul_left (dvd_pow_self 2 (by omega)) r
  rw [ht, one, Nat.mul_one] at even
  omega

end Binary64

namespace Ring

open Binary64 (IsInteger exists_isInteger isInteger_zero nearestFloat)

variable {q : Nat}

/-! ## Stored residues -/

/-- A coefficient of any size is reduced exactly by a prime that is a `Float`,
and a small one by every prime. -/
theorem residueOfWide_eq {v : Int} (pos : 0 < q) (h : v.natAbs < Poly.wideBound ∨ q < 2 ^ 53) :
    Poly.residueOfWide v q = Modular.ofInt v q := by
  have lt : Modular.ofInt v q < q := Modular.ofInt_lt pos v
  unfold Poly.residueOfWide
  split
  · rfl
  · rename_i wide
    rw [Binary64.nearestFloat_of_lt (h.resolve_left wide)]
    omega

/-- A wider odd prime has a number that is not reduced exactly: the multiple
of the `Float` in its place is taken for a multiple of the prime. -/
theorem exists_residueOfWide_ne (odd : q % 2 = 1) (wide : 2 ^ 53 ≤ q) (bound : q < 2 ^ 62) :
    ∃ x v, IsInteger x v ∧ Poly.residueOfWide v q ≠ Modular.ofInt v q := by
  obtain ⟨r, least, most, eq, -⟩ := Binary64.nearestFloat_of_le wide
  have log : 53 ≤ q.log2 := (Nat.le_log2 (by omega)).mpr wide
  have log' : q.log2 < 62 := (Nat.log2_lt (by omega)).mpr bound
  obtain ⟨k, hk⟩ : ∃ k, q.log2 = 52 + k := ⟨q.log2 - 52, by omega⟩
  have width : q.log2 - 52 = k := by omega
  rw [width] at eq
  -- The factor `2 ^ 10` takes the multiple beyond the wide bound, and keeps it a number.
  have number : ∃ x, IsInteger x (nearestFloat q * 2 ^ 10 : Nat) := by
    rw [eq, Nat.mul_assoc, ← Nat.pow_add]
    rcases most.lt_or_eq with below | rfl
    · exact exists_isInteger ⟨least, below, by omega, by omega⟩
    · have half : 2 ^ 53 * 2 ^ (k + 10) = 2 ^ 52 * 2 ^ (k + 11) := by
        rw [← Nat.pow_add, ← Nat.pow_add]
        exact congrArg (2 ^ ·) (by omega)
      rw [half]
      exact exists_isInteger ⟨Nat.le_refl _, by decide, by omega, by omega⟩
  obtain ⟨x, hx⟩ := number
  refine ⟨x, _, hx, ?_⟩
  have large : ¬((nearestFloat q * 2 ^ 10 : Nat) : Int).natAbs < Poly.wideBound := by
    have two : 2 ^ 1 ≤ 2 ^ k := Nat.pow_le_pow_right two_pos (by omega)
    have scaled : 2 ^ 52 * 2 ^ 1 ≤ nearestFloat q := eq ▸ Nat.mul_le_mul least two
    have bound : Poly.wideBound = 9000000000000000000 := rfl
    rw [bound, Int.natAbs_natCast]
    omega
  have stored : Poly.residueOfWide (nearestFloat q * 2 ^ 10 : Nat) q = 0 := by
    have multiple : Modular.ofInt (nearestFloat q * 2 ^ 10 : Nat) (nearestFloat q) = 0 := by
      rw [Modular.ofInt, ← Int.natCast_emod, Nat.mul_mod_right]
      rfl
    rw [Poly.residueOfWide, if_neg large, multiple, Nat.zero_min]
  rw [stored]
  intro zero
  rw [Modular.ofInt, ← Int.natCast_emod, Int.toNat_natCast] at zero
  exact Binary64.not_dvd_nearestFloat odd wide 10 (Nat.dvd_of_mod_eq_zero zero.symm)

/-! ## Elements -/

/-- What is stored for integers depends on the integers only. -/
theorem ofFloats_eq_ofWide {b : Basis} {coeffs : List Float} {ints : List Int}
    (h : List.Forall₂ IsInteger coeffs ints) (length : coeffs.length = b.degree) :
    Poly.ofFloats? b coeffs = .ok (Poly.ofWide b ints) := by
  have truncated : coeffs.map Binary64.truncate = ints := by
    clear length
    induction h with
    | nil => rfl
    | cons first _ ih => rw [List.map_cons, ih, first.truncate]
  rw [Poly.ofFloats?, Poly.checkLength, if_pos length, truncated]
  rfl

/-- Integers are stored as their residues if each is small or no prime is
wide. -/
theorem ofFloats_eq_ofInts {b : Basis} (valid : b.Valid) {coeffs : List Float} {ints : List Int}
    (h : List.Forall₂ IsInteger coeffs ints) (length : coeffs.length = b.degree)
    (small : (∀ v ∈ ints, v.natAbs < Poly.wideBound) ∨ ∀ q ∈ b.primes, q < 2 ^ 53) :
    Poly.ofFloats? b coeffs = .ok (Poly.ofInts b ints) := by
  rw [ofFloats_eq_ofWide h length, Poly.ofWide, Poly.ofInts]
  have residues : ∀ q ∈ b.primes, ints.map (Poly.residueOfWide · q) =
      ints.map (Modular.ofInt · q) := fun q hq =>
    List.map_congr_left fun v hv => residueOfWide_eq (valid.pos q hq)
      (small.imp (fun each => each v hv) fun all => all q hq)
  rw [List.map_congr_left residues]

/-- Numbers that are integers are stored as their residues modulo every prime
if they are below the wide bound. All such numbers of any magnitude are, for a
basis that is accepted, exactly if its primes have at most fifty-three bits. -/
theorem ofFloats_exact_iff {degree : Nat} {primes : List Nat} {b : Basis}
    (h : Basis.ofPrimes degree primes = .ok b) :
    (∀ coeffs ints, List.Forall₂ IsInteger coeffs ints → coeffs.length = b.degree →
      (∀ v ∈ ints, v.natAbs < Poly.wideBound) →
        Poly.ofFloats? b coeffs = .ok (Poly.ofInts b ints)) ∧
    ((∀ coeffs ints, List.Forall₂ IsInteger coeffs ints → coeffs.length = b.degree →
        Poly.ofFloats? b coeffs = .ok (Poly.ofInts b ints)) ↔ ∀ q ∈ b.primes, q < 2 ^ 53) := by
  obtain ⟨-, valid⟩ := Basis.valid_of_ofPrimes h
  refine ⟨fun coeffs ints all length small => ofFloats_eq_ofInts valid all length (.inl small),
    fun exact => ?_, fun narrow coeffs ints all length =>
      ofFloats_eq_ofInts valid all length (.inr narrow)⟩
  by_contra wide
  push Not at wide
  obtain ⟨q, hq, wide⟩ := wide
  have odd : q % 2 = 1 := Prime.odd_of_isPrime (valid.isPrime q hq) (by omega)
  obtain ⟨x, v, hx, ne⟩ := exists_residueOfWide_ne odd wide (valid.lt_bound q hq)
  obtain ⟨n, hn⟩ : ∃ n, b.degree = n + 1 := Nat.exists_eq_succ_of_ne_zero valid.degree_ne
  have all : List.Forall₂ IsInteger (x :: List.replicate n 0) (v :: List.replicate n 0) :=
    .cons hx (List.forall₂_iff_get.mpr ⟨by simp, fun i hi hi' => by
      simpa using isInteger_zero⟩)
  have length : (x :: List.replicate n (0 : Float)).length = b.degree := by
    rw [List.length_cons, List.length_replicate, hn]
  have stored := (ofFloats_eq_ofWide all length).symm.trans (exact _ _ all length)
  have channels :
      Poly.ofWide b (v :: List.replicate n 0) = Poly.ofInts b (v :: List.replicate n 0) :=
    Except.ok.inj stored
  have same := List.map_inj_left.mp (congrArg Poly.channels channels) q hq
  exact ne (List.cons.inj same).1

/-- A basis of small primes stores all of them. -/
theorem ofFloats_exact_narrow :
    Basis.ofPrimes 4 [457, 241] = .ok ⟨4, [457, 241]⟩ ∧
      ∀ coeffs ints, List.Forall₂ IsInteger coeffs ints → coeffs.length = 4 →
        Poly.ofFloats? ⟨4, [457, 241]⟩ coeffs = .ok (Poly.ofInts ⟨4, [457, 241]⟩ ints) := by
  have accepted : Basis.ofPrimes 4 [457, 241] = .ok ⟨4, [457, 241]⟩ := rfl
  exact ⟨accepted, (ofFloats_exact_iff accepted).2.mpr (by decide)⟩

/-- A basis with a prime just above fifty-three bits. -/
def wideBasis : Basis :=
  ⟨4, [9007199254740997, 17]⟩

/-- The number `2 ^ 63 + 4096` is stored there as zero and is no multiple of
that prime. -/
theorem ofFloats_inexact_wideBasis :
    Basis.ofPrimes 4 [9007199254740997, 17] = .ok wideBasis ∧
      List.Forall₂ IsInteger [Float.ofBits 0x43e0000000000002, 0, 0, 0] [2 ^ 63 + 4096, 0, 0, 0] ∧
      Poly.ofFloats? wideBasis [Float.ofBits 0x43e0000000000002, 0, 0, 0] ≠
        .ok (Poly.ofInts wideBasis [2 ^ 63 + 4096, 0, 0, 0]) := by
  have number : IsInteger (Float.ofBits 0x43e0000000000002) (2 ^ 63 + 4096) :=
    ⟨false, 2 ^ 52 + 2, 11, by rfl, by decide⟩
  have all : List.Forall₂ IsInteger [Float.ofBits 0x43e0000000000002, 0, 0, 0]
      [2 ^ 63 + 4096, 0, 0, 0] :=
    .cons number (.cons isInteger_zero (.cons isInteger_zero (.cons isInteger_zero .nil)))
  refine ⟨by rfl, all, ?_⟩
  rw [ofFloats_eq_ofWide all rfl]
  intro same
  have channels := congrArg Poly.channels (Except.ok.inj same)
  revert channels
  decide +kernel

end Ring

end CipherFlow
