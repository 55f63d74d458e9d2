import CipherFlow.Proofs.Arith.Powers
import CipherFlow.Ring.Reconstruction

/-!
# Mixed-radix digits

The digits that are found from residues, one place after the other, have the
residues they were found from, and each is less than half its odd prime. Two
integers of magnitude below half the product of the primes that have the same
residues are equal, so the digits of the residues of such an integer make up
that integer.

Main lemmas: `digitsAfter_spec` for the residues, `natAbs_evaluate_lt` for the size,
and `evaluate_digits`, which has both. The program goes from place to place with the
digits found so far, so the first of them is an induction over the primes that are
left, for any primes that have been dealt with.
-/

namespace CipherFlow

namespace Ring

/-! ## Places -/

variable {before primes : List Nat} {lower digits : List Int} {residues : List Nat}

theorem evaluate_append (length : before.length = lower.length) :
    evaluate (before ++ primes) (lower ++ digits) =
      evaluate before lower + before.prod * evaluate primes digits := by
  induction before generalizing lower with
  | nil =>
    obtain rfl := List.length_eq_zero_iff.mp length.symm
    simp [evaluate]
  | cons p before ih =>
    cases lower with
    | nil => exact nomatch length
    | cons d lower =>
      simp only [List.cons_append, evaluate, ih (Nat.succ.inj length), List.prod_cons]
      push_cast
      ring

section Residues

variable {A : Type} [CommRing A] {q : Nat} (hq : (q : A) = 0)

include hq

/-- The lower digits, weighted modulo a prime. -/
theorem cast_weightsMod (pos : 0 < q) (before : List Nat) (lower : List Int) (acc w : Nat) :
    (((lower.zip (Place.weightsMod q w before)).foldl
      (fun acc dw => (acc + Modular.mul (Modular.ofInt dw.1 q) dw.2 q) % q) acc : Nat) : A) =
      acc + w * (evaluate before lower : Int) := by
  induction before generalizing lower acc w with
  | nil => simp [Place.weightsMod, evaluate]
  | cons p before ih =>
    cases lower with
    | nil => simp [evaluate]
    | cons d lower =>
      rw [Place.weightsMod, List.zip_cons_cons, List.foldl_cons, ih, cast_mod hq, Modular.mul,
        Modular.mul, cast_mod hq, evaluate]
      push_cast
      rw [cast_mod hq, cast_mod hq, Nat.cast_mul, cast_ofInt hq d pos]
      ring

theorem cast_partialSum (pos : 0 < q) (before : List Nat) (lower : List Int) :
    (((Place.after before q).partialSum lower : Nat) : A) = (evaluate before lower : Int) := by
  have sum := cast_weightsMod hq pos before lower 0 (1 % q)
  rw [cast_mod hq, Nat.cast_zero, Nat.cast_one, zero_add, one_mul] at sum
  exact sum

/-- The weight of a place. -/
theorem cast_weight (before : List Nat) (w : Nat) :
    ((before.foldl (fun w p => Modular.mul w (p % q) q) w : Nat) : A) = w * before.prod := by
  induction before generalizing w with
  | nil => simp
  | cons p before ih =>
    rw [List.foldl_cons, ih, Modular.mul, cast_mod hq, List.prod_cons]
    push_cast
    rw [cast_mod hq]
    ring

end Residues

/-! ## Digits -/

/-- A digit that is less than half its prime. -/
def IsDigit (q : Nat) (d : Int) : Prop :=
  2 * d.natAbs < q

variable {q : Nat}

theorem isDigit_centre {r : Nat} (lt : r < q) (odd : q % 2 = 1) :
    IsDigit q (Modular.centre r q) := by
  unfold IsDigit Modular.centre
  split <;> omega

theorem partialSum_lt (pos : 0 < q) (before : List Nat) (lower : List Int) :
    (Place.after before q).partialSum lower < q := by
  unfold Place.partialSum
  generalize (lower.zip (Place.after before q).weights) = terms
  cases terms using List.reverseRecOn with
  | nil => exact pos
  | append_singleton terms dw =>
    rw [List.foldl_append]
    exact Nat.mod_lt _ pos

/-- A digit makes the digits up to it have its residue. -/
theorem digit_spec [Fact q.Prime] (odd : q % 2 = 1) (coprime : (before.prod : ZMod q) ≠ 0)
    {r : Nat} (lt : r < q) (lower : List Int) :
    IsDigit q ((Place.after before q).digit lower r) ∧
      ((evaluate before lower + before.prod * (Place.after before q).digit lower r : Int) :
          ZMod q) =
        r := by
  have zero : (q : ZMod q) = 0 := ZMod.natCast_self q
  have pos : 0 < q := Nat.zero_lt_of_lt lt
  have below : Modular.mul (Modular.sub r ((Place.after before q).partialSum lower) q)
      (Place.after before q).inverse q < q := Nat.mod_lt _ pos
  refine ⟨isDigit_centre below odd, ?_⟩
  have weight : ((before.foldl (fun w p => Modular.mul w (p % q) q) (1 % q) : Nat) : ZMod q) =
      before.prod := by
    rw [cast_weight zero, cast_mod zero, Nat.cast_one, one_mul]
  have inverse : ((Place.after before q).inverse : ZMod q) * before.prod = 1 := by
    rw [← weight] at coprime ⊢
    exact Modular.cast_inv_mul coprime
  have value : (((Place.after before q).digit lower r : Int) : ZMod q) =
      (r - (evaluate before lower : Int)) * (Place.after before q).inverse := by
    show ((Modular.centre (Modular.mul (Modular.sub r ((Place.after before q).partialSum lower) q)
      (Place.after before q).inverse q) q : Int) : ZMod q) = _
    rw [cast_centre zero below, Modular.mul, cast_mod zero, Nat.cast_mul,
      cast_sub zero _ (partialSum_lt pos before lower), cast_partialSum zero pos]
  rw [Int.cast_add, Int.cast_mul, Int.cast_natCast, value]
  calc _ = (evaluate before lower : ZMod q) + (r - (evaluate before lower : Int)) *
        ((Place.after before q).inverse * before.prod) := by ring
    _ = r := by
      rw [inverse]
      ring

/-- Other primes do not divide to zero. -/
theorem cast_prod_ne_zero (own : q.Prime) (prime : ∀ p ∈ before, p.Prime) (notMem : q ∉ before) :
    (before.prod : ZMod q) ≠ 0 := by
  rw [ne_eq, ZMod.natCast_eq_zero_iff, own.prime.dvd_prod_iff]
  rintro ⟨p, hp, dvd⟩
  exact notMem ((Nat.prime_dvd_prime_iff_eq own (prime p hp)).mp dvd ▸ hp)

/-- Further digits do not change the residue of a prime. -/
theorem dvd_evaluate_append {r : Nat} {lower : List Int} {d : Int}
    (length : before.length = lower.length)
    (residue : ((evaluate before lower + before.prod * d : Int) : ZMod q) = r) :
    (q : Int) ∣ evaluate (before ++ q :: primes) (lower ++ d :: digits) - r := by
  have first : (q : Int) ∣ evaluate before lower + before.prod * d - r := by
    rw [← ZMod.intCast_zmod_eq_zero_iff_dvd, Int.cast_sub, residue, Int.cast_natCast, sub_self]
  have others : (q : Int) ∣ q * (before.prod * evaluate primes digits) := dvd_mul_right _ _
  have rearranged : evaluate before lower + before.prod * d - r +
      q * (before.prod * evaluate primes digits) =
        evaluate before lower + before.prod * (d + q * evaluate primes digits) - r := by ring
  rw [evaluate_append length, evaluate, ← rearranged]
  exact first.add others

/-- A digit for each prime, and for each prime its residue. -/
theorem digitsAfter_spec (before : List Nat) (lower : List Int)
    (length : before.length = lower.length)
    (prime : ∀ q ∈ before ++ primes, q.Prime) (odd : ∀ q ∈ primes, q % 2 = 1)
    (nodup : (before ++ primes).Nodup) (reduced : List.Forall₂ (fun q r => r < q) primes residues) :
    ∃ digits, digitsAfter lower (Place.ofPrimesAfter before primes) residues = lower ++ digits ∧
      List.Forall₂ IsDigit primes digits ∧
      List.Forall₂ (fun (q r : Nat) =>
          (q : Int) ∣ evaluate (before ++ primes) (lower ++ digits) - r)
        primes residues := by
  induction primes generalizing before lower residues with
  | nil =>
    obtain rfl := List.forall₂_nil_left_iff.mp reduced
    exact ⟨[], (List.append_nil lower).symm, .nil, .nil⟩
  | cons q primes ih =>
    cases reduced with
    | @cons _ r _ residues lt reduced =>
      obtain ⟨oddFirst, odd⟩ := List.forall_mem_cons.mp odd
      have own : q.Prime := prime q (List.mem_append_right _ List.mem_cons_self)
      have : Fact q.Prime := ⟨own⟩
      have coprime : (before.prod : ZMod q) ≠ 0 :=
        cast_prod_ne_zero own (fun p hp => prime p (List.mem_append_left _ hp)) fun hq =>
          List.disjoint_of_nodup_append nodup hq List.mem_cons_self
      obtain ⟨digit, residue⟩ := digit_spec oddFirst coprime lt lower
      generalize hd : (Place.after before q).digit lower r = d at digit residue
      have shift : before ++ [q] ++ primes = before ++ q :: primes := List.append_cons _ _ _ |>.symm
      obtain ⟨digits, eq, each, residuesOk⟩ := ih (before ++ [q]) (lower ++ [d])
        (by simp [length]) (shift ▸ prime) odd (shift ▸ nodup) reduced
      have shiftDigits : lower ++ [d] ++ digits = lower ++ d :: digits :=
        (List.append_cons _ _ _).symm
      rw [shiftDigits] at eq residuesOk
      rw [shift] at residuesOk
      refine ⟨d :: digits, ?_, .cons digit each, .cons ?_ residuesOk⟩
      · rw [Place.ofPrimesAfter, digitsAfter, hd, eq]
      · exact dvd_evaluate_append length residue

/-- Digits make up an integer of magnitude below half the product. -/
theorem natAbs_evaluate_lt (h : List.Forall₂ IsDigit primes digits) :
    2 * (evaluate primes digits).natAbs < primes.prod := by
  induction h with
  | nil => exact Nat.one_pos
  | @cons q d primes digits digit _ ih =>
    have small : 2 * d.natAbs < q := digit
    have bound : (d + q * evaluate primes digits).natAbs ≤
        d.natAbs + q * (evaluate primes digits).natAbs := by
      have sum := Int.natAbs_add_le d (q * evaluate primes digits)
      rwa [Int.natAbs_mul, Int.natAbs_natCast] at sum
    have scaled : q * (2 * (evaluate primes digits).natAbs + 1) ≤ q * primes.prod :=
      Nat.mul_le_mul_left q ih
    rw [evaluate, List.prod_cons]
    rw [Nat.mul_add, Nat.mul_one, Nat.mul_left_comm] at scaled
    omega

/-- An integer of magnitude below the product that all primes divide is zero. -/
theorem eq_zero_of_dvd {v : Int} (prime : ∀ q ∈ primes, q.Prime) (nodup : primes.Nodup)
    (dvd : ∀ q ∈ primes, (q : Int) ∣ v) (lt : v.natAbs < primes.prod) : v = 0 := by
  have product : primes.prod ∣ v.natAbs := by
    rw [← List.map_id primes, ← List.prod_toFinset id nodup]
    refine Finset.prod_primes_dvd _ (fun q hq => ?_) fun q hq => ?_
    · exact (prime q (List.mem_toFinset.mp hq)).prime
    · exact Int.natCast_dvd.mp (dvd q (List.mem_toFinset.mp hq))
  exact Int.natAbs_eq_zero.mp (Nat.eq_zero_of_dvd_of_lt product lt)

/-- The digits that are found from the residues of an integer of magnitude
below half the product make up that integer. -/
theorem evaluate_digits {b : Basis} (prime : ∀ q ∈ b.primes, q.Prime)
    (odd : ∀ q ∈ b.primes, q % 2 = 1) (nodup : b.primes.Nodup) {v : Int}
    (lt : 2 * v.natAbs < b.primes.prod) :
    List.Forall₂ IsDigit b.primes (Ring.digits b (b.primes.map (Modular.ofInt v))) ∧
      evaluate b.primes (Ring.digits b (b.primes.map (Modular.ofInt v))) = v := by
  have pos : ∀ q ∈ b.primes, 0 < q := fun q hq => (prime q hq).pos
  have nonneg : ∀ q ∈ b.primes, ((Modular.ofInt v q : Nat) : Int) = v % (q : Int) := fun q hq =>
    Int.toNat_of_nonneg (Int.emod_nonneg v (by have := pos q hq; omega))
  have reduced : List.Forall₂ (fun q r => r < q) b.primes (b.primes.map (Modular.ofInt v)) := by
    rw [List.forall₂_map_right_iff, List.forall₂_same]
    intro q hq
    have below := Int.emod_lt_of_pos v (Int.natCast_pos.mpr (pos q hq))
    have := nonneg q hq
    omega
  obtain ⟨digits, eq, each, residuesOk⟩ := digitsAfter_spec [] [] rfl
    (show ∀ q ∈ [] ++ b.primes, q.Prime from prime) odd nodup reduced
  have found : Ring.digits b (b.primes.map (Modular.ofInt v)) = digits := eq
  rw [found]
  refine ⟨each, ?_⟩
  have small := natAbs_evaluate_lt each
  have congruent : ∀ q ∈ b.primes, (q : Int) ∣ evaluate b.primes digits - v := by
    rw [List.forall₂_map_right_iff, List.forall₂_same] at residuesOk
    intro q hq
    have first : (q : Int) ∣ evaluate b.primes digits - (Modular.ofInt v q : Nat) := residuesOk q hq
    rw [nonneg q hq] at first
    have second : (q : Int) ∣ v % q - v := ⟨-(v / q), by rw [Int.emod_def]; ring⟩
    have sum := first.add second
    rwa [sub_add_sub_cancel] at sum
  exact sub_eq_zero.mp (eq_zero_of_dvd prime nodup congruent (by omega))

end Ring

end CipherFlow
