import CipherFlow.Proofs.Number.Whole
import CipherFlow.Proofs.Ring.MixedRadix
import CipherFlow.Proofs.Scheme.Chain

/-!
# Reading coefficients back as numbers

The digits of a coefficient are summed in floating point, the highest first.
If the coefficient is small, so are all partial sums: what the digits from some
place on make up, times the weight of that place, is hardly larger than the
coefficient. So the sum is exact as far as the digits are not zero, and zero
digits add nothing as long as their weights are finite. Where a weight is not
finite, nothing can be read back.

`toFloats_exact_iff` has both directions. `step_small` keeps the bound on the
partial sums from one place to the next, and `floatSum_eq` is the induction, from
the highest place down. In the other direction a weight that is not finite meets the
digit zero of the coefficient zero (`floatSum_isNaN`).
-/

namespace CipherFlow.Ring

variable {q W : Nat} {primes : List Nat} {d v : Int} {digits : List Int} {weights : List Float}

/-! ## Partial sums -/

/-- What the higher digits make up, scaled, is hardly larger than the whole. -/
theorem scaled_le (digit : IsDigit q d) : 2 * (q * v.natAbs) + 1 ≤ 2 * (d + q * v).natAbs + q := by
  have small : 2 * d.natAbs < q := digit
  have whole : (q * v).natAbs ≤ (d + q * v).natAbs + d.natAbs := by
    have difference := Int.natAbs_sub_le (d + q * v) d
    rwa [add_sub_cancel_left] at difference
  rw [Int.natAbs_mul, Int.natAbs_natCast] at whole
  omega

/-- All digits of zero are zero. -/
theorem eq_zero_of_evaluate (h : List.Forall₂ IsDigit primes digits)
    (zero : evaluate primes digits = 0) : ∀ d ∈ digits, d = 0 := by
  induction h with
  | nil => exact fun d hd => (nomatch hd)
  | @cons q d primes digits digit _ ih =>
    have small : 2 * d.natAbs < q := digit
    have scaled := scaled_le (v := evaluate primes digits) digit
    rw [evaluate] at zero
    rw [zero] at scaled
    have higher : evaluate primes digits = 0 := by
      by_contra nonzero
      have one : 1 ≤ (evaluate primes digits).natAbs := Int.natAbs_pos.mpr nonzero
      have least : q * 1 ≤ q * (evaluate primes digits).natAbs := Nat.mul_le_mul_left q one
      rw [Int.natAbs_zero] at scaled
      omega
    rw [higher, Int.mul_zero, Int.add_zero] at zero
    exact List.forall_mem_cons.mpr ⟨zero, ih higher⟩

/-- Zero digits add up to zero if their weights are finite. -/
theorem floatSum_zero (zero : ∀ d ∈ digits, d = 0)
    (finite : ∀ w ∈ weights, Binary64.isFinite w = true) :
    floatSum digits weights = Float.ofInt 0 := by
  induction digits generalizing weights with
  | nil => rfl
  | cons d digits ih =>
    cases weights with
    | nil => rfl
    | cons w weights =>
      obtain ⟨rfl, zeros⟩ := List.forall_mem_cons.mp zero
      obtain ⟨first, others⟩ := List.forall_mem_cons.mp finite
      show floatSum digits weights + Float.ofInt 0 * w = _
      rw [ih zeros others, ofInt_add_zero_mul (by decide) first]

/-- With a weight that is not finite, zero digits do not add up. -/
theorem floatSum_isNaN (zero : ∀ d ∈ digits, d = 0) (length : digits.length = weights.length)
    (infinite : ∃ w ∈ weights, ¬Binary64.isFinite w = true) :
    (floatSum digits weights).isNaN = true := by
  induction digits generalizing weights with
  | nil =>
    obtain rfl := List.length_eq_zero_iff.mp length.symm
    obtain ⟨w, hw, -⟩ := infinite
    exact nomatch hw
  | cons d digits ih =>
    cases weights with
    | nil => exact nomatch length
    | cons w weights =>
      obtain ⟨rfl, zeros⟩ := List.forall_mem_cons.mp zero
      obtain ⟨w', hw', bad⟩ := infinite
      show (floatSum digits weights + Float.ofInt 0 * w).isNaN = true
      rcases List.mem_cons.mp hw' with rfl | later
      · exact add_isNaN (.inr (zero_mul_isNaN bad))
      · exact add_isNaN (.inl (ih zeros (Nat.succ.inj length) ⟨w', later, bad⟩))

/-- From one place to the next the bound of the partial sums is kept. -/
theorem step_small (digit : IsDigit q d) (higher : v ≠ 0)
    (small : W * (2 * (d + q * v).natAbs) < 2 ^ 51 + W) :
    W * q < 2 ^ 51 ∧ W * q * (2 * v.natAbs) < 2 ^ 51 + W * q := by
  have step : W * q * (2 * v.natAbs) < 2 ^ 51 + W * q := by
    have scaled := Nat.mul_le_mul_left W (scaled_le digit (v := v))
    rw [Nat.mul_add, Nat.mul_add, Nat.mul_one] at scaled
    rw [Nat.mul_assoc, Nat.mul_left_comm q]
    omega
  have one : 1 ≤ v.natAbs := Int.natAbs_pos.mpr higher
  have least := Nat.mul_le_mul_left (W * q) (Nat.mul_le_mul_left 2 one)
  exact ⟨by omega, step⟩

/-- The term of a digit is added exactly to a sum that is exact. -/
theorem add_term {x : Float} (sum : x = Float.ofInt v) (pos : 0 < W) (weight : W < 2 ^ 53)
    (term : d.natAbs * W < 2 ^ 53) (rest : v.natAbs < 2 ^ 53)
    (whole : (v + d * W).natAbs < 2 ^ 53) :
    x + Float.ofInt d * Float.ofNat W = Float.ofInt (v + d * W) := by
  have product : (d * W).natAbs < 2 ^ 53 := by rwa [Int.natAbs_mul, Int.natAbs_natCast]
  rw [sum, ofInt_mul_ofNat pos weight term, ofInt_add rest product whole]

/-- The sum of the digits from a place on, with weights that start at the
weight of that place, is exact if it is small. -/
theorem floatSum_eq (digit : List.Forall₂ IsDigit primes digits) (pos : 0 < W)
    (finite : ∀ w ∈ floatWeights (Float.ofNat W) primes, Binary64.isFinite w = true)
    (nonzero : evaluate primes digits ≠ 0)
    (small : W * (2 * (evaluate primes digits).natAbs) < 2 ^ 51 + W) :
    floatSum digits (floatWeights (Float.ofNat W) primes) =
      Float.ofInt (evaluate primes digits * W) := by
  induction digit generalizing W with
  | nil => exact absurd rfl nonzero
  | @cons q d primes digits first others ih =>
    obtain ⟨-, later⟩ := List.forall_mem_cons.mp finite
    have low : 2 * d.natAbs < q := first
    have one : 1 ≤ (evaluate (q :: primes) (d :: digits)).natAbs := Int.natAbs_pos.mpr nonzero
    have weight : W < 2 ^ 51 := by
      have least := Nat.mul_le_mul_left W (Nat.mul_le_mul_left 2 one)
      omega
    have value : evaluate (q :: primes) (d :: digits) = d + q * evaluate primes digits := rfl
    rw [value] at small ⊢
    have whole : evaluate primes digits * (W * q : Nat) + d * W =
        (d + q * evaluate primes digits) * W := by
      push_cast
      ring
    have sum : (evaluate primes digits * (W * q : Nat) + d * W).natAbs < 2 ^ 53 := by
      rw [whole, Int.natAbs_mul, Int.natAbs_natCast]
      rw [Nat.mul_left_comm, Nat.mul_comm W] at small
      omega
    -- the higher digits are all zero, or the weights go on as integers
    have parts : floatSum digits (floatWeights (Float.ofNat W * Float.ofNat q) primes) =
          Float.ofInt (evaluate primes digits * (W * q : Nat)) ∧ d.natAbs * W < 2 ^ 53 ∧
        (evaluate primes digits * (W * q : Nat)).natAbs < 2 ^ 53 := by
      by_cases higher : evaluate primes digits = 0
      · rw [higher, Int.zero_mul, Int.zero_add, Int.natAbs_mul, Int.natAbs_natCast] at sum
        rw [higher, Int.zero_mul]
        exact ⟨floatSum_zero (eq_zero_of_evaluate others higher) later, sum, by decide⟩
      · obtain ⟨next, step⟩ := step_small first higher small
        have prime : 0 < q := by omega
        have below : q ≤ W * q := Nat.le_mul_of_pos_left q pos
        rw [ofNat_mul_ofNat prime (by omega) (by omega)] at later ⊢
        refine ⟨ih (Nat.mul_pos pos prime) later higher step, ?_, ?_⟩
        · have half : d.natAbs * W ≤ q * W := Nat.mul_le_mul_right W (by omega)
          rw [Nat.mul_comm q] at half
          omega
        · rw [Int.natAbs_mul, Int.natAbs_natCast, Nat.mul_comm]
          rw [Nat.mul_left_comm] at step
          omega
    obtain ⟨exact, term, rest⟩ := parts
    rw [← whole]
    exact add_term exact pos (weight.trans (by decide)) term rest sum

/-! ## Elements -/

theorem length_floatWeights (w : Float) (primes : List Nat) :
    (floatWeights w primes).length = primes.length := by
  induction primes generalizing w with
  | nil => rfl
  | cons q primes ih => rw [floatWeights, List.length_cons, ih, List.length_cons]

/-- The residues of each coefficient. -/
theorem columns_ofInts {b : Basis} {c : List Int} (length : c.length = b.degree) :
    (Poly.ofInts b c).columns = c.map fun v => b.primes.map (Modular.ofInt v) := by
  have columns : ∀ primes : List Nat, (primes.map fun q => c.map (Modular.ofInt · q)).foldr
      (fun channel rest => List.zipWith (· :: ·) channel rest) (List.replicate b.degree []) =
        c.map fun v => primes.map (Modular.ofInt v) := by
    intro primes
    induction primes with
    | nil =>
      rw [← length]
      exact List.map_const'.symm
    | cons q primes ih =>
      rw [List.map_cons, List.foldr_cons, ih, List.zipWith_map, List.zipWith_self]
      rfl
  exact columns b.primes

theorem toFloats_ofInts {b : Basis} {c : List Int} (length : c.length = b.degree) :
    (Poly.ofInts b c).toFloats = c.map fun v =>
      floatSum (Ring.digits b (b.primes.map (Modular.ofInt v))) (floatWeights 1 b.primes) := by
  rw [Poly.toFloats, columns_ofInts length, List.map_map]
  rfl

/-- Over distinct odd primes, all small coefficients below half the product of
the primes are read back exactly if and only if all weights are finite. -/
theorem toFloats_exact_iff {b : Basis} (valid : b.Valid) (prime : ∀ q ∈ b.primes, q.Prime)
    (odd : ∀ q ∈ b.primes, q % 2 = 1) :
    (∀ c : List Int, c.length = b.degree →
      (∀ v ∈ c, v.natAbs < 2 ^ 50 ∧ v.natAbs ≤ (b.primes.prod - 1) / 2) →
        (Poly.ofInts b c).toFloats = c.map Float.ofInt) ↔
      ∀ w ∈ floatWeights 1 b.primes, Binary64.isFinite w = true := by
  have product : 0 < b.primes.prod := List.prod_pos valid.pos
  have digitsOf := fun (v : Int) (le : v.natAbs ≤ (b.primes.prod - 1) / 2) =>
    evaluate_digits prime odd valid.nodup (show 2 * v.natAbs < b.primes.prod by omega)
  constructor
  · intro exact
    by_contra infinite
    push Not at infinite
    -- The zero polynomial is enough: where a weight is infinite not even zeros are read back.
    have small : ∀ v ∈ List.replicate b.degree (0 : Int),
        v.natAbs < 2 ^ 50 ∧ v.natAbs ≤ (b.primes.prod - 1) / 2 := by
      intro v hv
      rw [List.eq_of_mem_replicate hv]
      exact ⟨by decide, Nat.zero_le _⟩
    have read := exact _ List.length_replicate small
    rw [toFloats_ofInts List.length_replicate, List.map_replicate, List.map_replicate] at read
    have first := (List.replicate_inj.mp read).2.resolve_left valid.degree_ne
    obtain ⟨each, value⟩ := digitsOf 0 (Nat.zero_le _)
    obtain ⟨w, hw, bad⟩ := infinite
    have isNaN := floatSum_isNaN (eq_zero_of_evaluate each value)
      (each.length_eq.symm.trans (length_floatWeights 1 b.primes).symm) ⟨w, hw, by simpa using bad⟩
    rw [first, ofInt_isNaN (by decide)] at isNaN
    exact nomatch isNaN
  · intro finite c length small
    rw [toFloats_ofInts length]
    refine List.map_congr_left fun v hv => ?_
    obtain ⟨bound, half⟩ := small v hv
    obtain ⟨each, value⟩ := digitsOf v half
    by_cases zero : v = 0
    · rw [zero] at value each ⊢
      exact floatSum_zero (eq_zero_of_evaluate each value) finite
    · have sum := floatSum_eq each Nat.one_pos finite (value.symm ▸ zero) (by rw [value]; omega)
      rw [value, Nat.cast_one, Int.mul_one] at sum
      exact sum

end CipherFlow.Ring
