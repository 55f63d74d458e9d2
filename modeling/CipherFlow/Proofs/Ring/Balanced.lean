import CipherFlow.Proofs.Ring.ReadBack

/-!
# Balanced digits

The digits that are found for a coefficient, each times the primes before its
own, add up to the coefficient: to the one integer that has the stored residues
and is at most half the product of the primes away from zero. Each digit is
centred modulo its prime.

`Poly.digits_make_up_coefficients` says this of every coefficient of a reduced
element, and that integers in the range come back from the element that they make.

How the proof goes. Horner's rule on the digits gives the sum over the places
(`evaluate_eq_placeSum`). Its residues are the stored ones, by the mixed-radix
lemmas of `CipherFlow.Proofs.Ring.MixedRadix`, and its size is bounded place by
place. Two integers of this size with the same residues differ by a multiple of a
product that is larger than their difference (`eq_of_residues`).
-/

namespace CipherFlow.Ring

variable {b : Basis} {p : Poly} {primes residues : List Nat} {digits : List Int} {n k : Nat}

/-- The residues of a coefficient, one for each prime. -/
def Poly.residuesAt (p : Poly) (k : Nat) : List Nat :=
  p.channels.map (·.getD k 0)

/-- The sum of digits, each times the product of the primes before its own. -/
def placeSum (primes : List Nat) (digits : List Int) : Int :=
  ∑ i ∈ Finset.range digits.length, digits.getD i 0 * (primes.take i).prod

/-- Digits at most half their primes, which make up the one integer that has
given residues and is at most half the product of the primes. -/
structure IsBalanced (primes residues : List Nat) (digits : List Int) : Prop where
  length : digits.length = primes.length
  le : ∀ (i q : Nat) (d : Int), primes[i]? = some q → digits[i]? = some d → d.natAbs ≤ (q - 1) / 2
  eq_placeSum_iff : ∀ v : Int, v = placeSum primes digits ↔
    v.natAbs ≤ (primes.prod - 1) / 2 ∧
      ∀ i q r : Nat, primes[i]? = some q → residues[i]? = some r → v % q = r

/-! ## Coefficients -/

/-- The digits of a coefficient are found from its residues. -/
theorem Poly.getElem?_columns (reduced : p.Reduced) (lt : k < p.basis.degree) :
    p.columns[k]? = some (p.residuesAt k) := by
  have columns : ∀ channels : List (List Nat), (∀ c ∈ channels, c.length = p.basis.degree) →
      (channels.foldr (fun c rest => List.zipWith (· :: ·) c rest)
        (List.replicate p.basis.degree []))[k]? = some (channels.map (·.getD k 0)) := by
    intro channels length
    induction channels with
    | nil => exact List.getElem?_replicate_of_lt lt
    | cons x channels ih =>
      obtain ⟨first, rest⟩ := List.forall_mem_cons.mp length
      have entry : x[k]? = some (x.getD k 0) := by
        rw [List.getD_eq_getElem?_getD, List.getElem?_eq_getElem (first ▸ lt), Option.getD_some]
      rw [List.foldr_cons, List.getElem?_zipWith, ih rest, entry]
      rfl
  exact columns p.channels reduced.length_channel

theorem Poly.getElem?_toFloats (reduced : p.Reduced) (lt : k < p.basis.degree) :
    p.toFloats[k]? =
      some (floatSum (Ring.digits p.basis (p.residuesAt k)) (floatWeights 1 p.basis.primes)) := by
  rw [Poly.toFloats, List.getElem?_map, Poly.getElem?_columns reduced lt]
  rfl

/-- The residues of a coefficient are below their primes. -/
theorem Poly.residuesAt_lt (reduced : p.Reduced) (lt : k < p.basis.degree) :
    List.Forall₂ (fun q r => r < q) p.basis.primes (p.residuesAt k) := by
  rw [residuesAt, List.forall₂_map_right_iff, List.forall₂_iff_zip]
  refine ⟨reduced.length_channels.symm, fun {q c} mem => ?_⟩
  have swapped : (c, q) ∈ p.channels.zip p.basis.primes := by
    rw [← List.zip_swap]
    exact List.mem_map.mpr ⟨(q, c), mem, rfl⟩
  have inside : k < c.length := reduced.length_channel c (List.of_mem_zip swapped).1 ▸ lt
  rw [List.getD_eq_getElem?_getD, List.getElem?_eq_getElem inside, Option.getD_some]
  exact reduced.lt_prime _ swapped _ (List.getElem_mem inside)

theorem Poly.residuesAt_ofInts {coeffs : List Int} {v : Int} (hv : coeffs[k]? = some v) :
    (Poly.ofInts b coeffs).residuesAt k = b.primes.map (Modular.ofInt v) := by
  rw [residuesAt, ofInts, List.map_map]
  refine List.map_congr_left fun q _ => ?_
  rw [Function.comp_apply, List.getD_eq_getElem?_getD, List.getElem?_map, hv]
  rfl

/-! ## Sums -/

/-- Horner's rule gives the sum over the places. -/
theorem evaluate_eq_placeSum (length : digits.length = primes.length) :
    evaluate primes digits = placeSum primes digits := by
  induction digits generalizing primes with
  | nil =>
    obtain rfl := List.length_eq_zero_iff.mp length.symm
    rfl
  | cons d digits ih =>
    cases primes with
    | nil => cases length
    | cons q primes =>
      rw [evaluate, ih (Nat.succ.inj length), placeSum, placeSum, List.length_cons,
        Finset.sum_range_succ', Finset.mul_sum, add_comm]
      simp only [List.getD_cons_zero, List.getD_cons_succ, List.take_zero, List.take_succ_cons,
        List.prod_cons, List.prod_nil, Nat.cast_mul, Nat.cast_one, mul_one]
      congr 1
      exact Finset.sum_congr rfl fun i _ => mul_left_comm _ _ _

/-- The integers in the range of a balanced system that have the same residues are
the same. -/
theorem eq_of_residues {v w : Int} (prime : ∀ q ∈ primes, q.Prime) (nodup : primes.Nodup)
    (hv : 2 * v.natAbs < primes.prod) (hw : 2 * w.natAbs < primes.prod)
    (same : ∀ q ∈ primes, v % (q : Int) = w % (q : Int)) : v = w := by
  refine sub_eq_zero.mp (eq_zero_of_dvd prime nodup (fun q hq => ?_) ?_)
  · exact Int.ModEq.dvd (same q hq).symm
  · have := Int.natAbs_sub_le v w
    omega

/-- The digits that are found from reduced residues are balanced. -/
theorem balanced_digits (prime : ∀ q ∈ b.primes, q.Prime) (odd : ∀ q ∈ b.primes, q % 2 = 1)
    (nodup : b.primes.Nodup) (reduced : List.Forall₂ (fun q r => r < q) b.primes residues) :
    IsBalanced b.primes residues (Ring.digits b residues) := by
  obtain ⟨digits, eq, each, residuesOk⟩ := digitsAfter_spec [] [] rfl
    (show ∀ q ∈ [] ++ b.primes, q.Prime from prime) odd nodup reduced
  have found : Ring.digits b residues = digits := eq
  rw [found]
  have length : digits.length = b.primes.length := each.length_eq.symm
  have product : 0 < b.primes.prod := List.prod_pos fun q hq => (prime q hq).pos
  have small := natAbs_evaluate_lt each
  -- the sum has the residues; so `v` is the sum if it has them and is as small
  have residue : ∀ i q r : Nat, b.primes[i]? = some q → residues[i]? = some r →
      evaluate b.primes digits % q = r := by
    intro i q r hq hr
    obtain ⟨lt, rfl⟩ := List.getElem?_eq_some_iff.mp hq
    obtain ⟨lt', rfl⟩ := List.getElem?_eq_some_iff.mp hr
    have dvd : (b.primes[i] : Int) ∣ evaluate b.primes digits - residues[i] := residuesOk.get lt lt'
    have below : residues[i] < b.primes[i] := reduced.get lt lt'
    rw [Int.emod_eq_emod_iff_emod_sub_eq_zero.mpr (Int.emod_eq_zero_of_dvd dvd)]
    exact Int.emod_eq_of_lt (Int.natCast_nonneg _) (by exact_mod_cast below)
  refine ⟨length, fun i q d hq hd => ?_, fun v => ?_⟩
  · obtain ⟨lt, rfl⟩ := List.getElem?_eq_some_iff.mp hq
    obtain ⟨lt', rfl⟩ := List.getElem?_eq_some_iff.mp hd
    have digit : 2 * digits[i].natAbs < b.primes[i] := each.get lt lt'
    omega
  · rw [← evaluate_eq_placeSum length]
    constructor
    · rintro rfl
      exact ⟨by omega, residue⟩
    · rintro ⟨range, same⟩
      refine eq_of_residues prime nodup (by omega) small fun q hq => ?_
      obtain ⟨i, lt, rfl⟩ := List.mem_iff_getElem.mp hq
      have lt' : i < residues.length := reduced.length_eq ▸ lt
      have hq := List.getElem?_eq_getElem lt
      have hr := List.getElem?_eq_getElem lt'
      exact (same i _ _ hq hr).trans (residue i _ _ hq hr).symm

/-- The digits from which the coefficients of a reduced element are read back
are balanced over distinct odd primes. Integers at most half the product of the
primes are made up again by the digits of their element. -/
theorem Poly.digits_make_up_coefficients (reduced : p.Reduced)
    (prime : ∀ q ∈ p.basis.primes, q.Prime) (odd : ∀ q ∈ p.basis.primes, q % 2 = 1)
    (nodup : p.basis.primes.Nodup) :
    (∀ k < p.basis.degree,
      p.toFloats[k]? = some
        (floatSum (Ring.digits p.basis (p.residuesAt k)) (floatWeights 1 p.basis.primes)) ∧
      IsBalanced p.basis.primes (p.residuesAt k) (Ring.digits p.basis (p.residuesAt k))) ∧
    ∀ coeffs : List Int, coeffs.length = p.basis.degree →
      (∀ v ∈ coeffs, v.natAbs ≤ (p.basis.primes.prod - 1) / 2) →
        ∃ r, Poly.ofInts? p.basis coeffs = .ok r ∧ r.Reduced ∧ r.basis = p.basis ∧
          ∀ k v, coeffs[k]? = some v →
            placeSum p.basis.primes (Ring.digits p.basis (r.residuesAt k)) = v := by
  refine ⟨fun k lt => ⟨getElem?_toFloats reduced lt,
    balanced_digits prime odd nodup (residuesAt_lt reduced lt)⟩, ?_⟩
  intro coeffs length small
  have pos : ∀ q ∈ p.basis.primes, 0 < q := fun q hq => (prime q hq).pos
  have isOver := isOver_ofInts pos length
  refine ⟨Poly.ofInts p.basis coeffs, ?_, isOver.reduced, rfl, ?_⟩
  · rw [ofInts?, checkLength, if_pos length]
    rfl
  · intro k v hv
    have product : 0 < p.basis.primes.prod := List.prod_pos pos
    have range := small v (List.mem_of_getElem? hv)
    obtain ⟨each, value⟩ := evaluate_digits prime odd nodup
      (show 2 * v.natAbs < p.basis.primes.prod by omega)
    rw [residuesAt_ofInts hv, ← evaluate_eq_placeSum each.length_eq.symm, value]

/-- Three small primes, and integers up to half their product. -/
theorem Poly.digits_make_up_coefficients_three :
    ∃ r, Poly.ofInts? ⟨4, [97, 113, 193]⟩ [-2, 1057736, -1057736, 0] = .ok r ∧
      IsBalanced [97, 113, 193] (r.residuesAt 1)
        (Ring.digits ⟨4, [97, 113, 193]⟩ (r.residuesAt 1)) ∧
      placeSum [97, 113, 193] (Ring.digits ⟨4, [97, 113, 193]⟩ (r.residuesAt 1)) = 1057736 := by
  have prime : ∀ q ∈ [97, 113, 193], Nat.Prime q := by norm_num
  have isOver : (Poly.ofInts ⟨4, [97, 113, 193]⟩ [-2, 1057736, -1057736, 0]).IsOver _ :=
    isOver_ofInts (by decide) rfl
  obtain ⟨digits, integers⟩ :=
    Poly.digits_make_up_coefficients isOver.reduced prime (by decide) (by decide)
  obtain ⟨r, made, -, -, sums⟩ := integers [-2, 1057736, -1057736, 0] rfl (by decide)
  have same : Poly.ofInts ⟨4, [97, 113, 193]⟩ [-2, 1057736, -1057736, 0] = r := Except.ok.inj made
  exact ⟨r, made, same ▸ (digits 1 (by decide)).2, sums 1 _ rfl⟩

end CipherFlow.Ring
