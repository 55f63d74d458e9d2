import CipherFlow.Proofs.Arith.LargestPrimes
import CipherFlow.Proofs.Arith.Powers
import Mathlib.Tactic.IntervalCases
import Mathlib.Tactic.NormNum.Prime

/-!
# The primality test

The strong test rejects no prime. Modulo a prime the power of a base to the
prime less one is 1, and the repeated squares that lead there come from a root
of 1 other than 1 itself, of which there is only `-1`. A composite number with
a prime factor among the bases is rejected to that base: the factor divides the
base, its power, the squares and the modulus, so no residue on the way is 1 or
`-1`. Below `41 ^ 2` every composite number has such a factor. No step of the
test leaves a machine word.

`word_isTested` states it for every word, together with what it means for the
searches: a prime is not passed over.

How the proof goes. Both halves are inductions on the number of squares. From a
power that is 1, `reaches_of_pow_eq_one` looks for the square at which the 1 came
about: the number before it is a square root of 1. `squaresReach_of_dvd` carries a
common factor along instead. For the words the test is written once more with
`Option`, nothing standing for a step that leaves the words, and step by step it
gives what the test on numbers gives (`isPrime?_eq`).
-/

namespace CipherFlow

namespace Prime

variable {n d r a p x count fuel : Nat}

/-! ## The odd part -/

/-- Halving ends at an odd number, if it may be repeated as often as the number has
digits. -/
theorem halve_spec (pos : 0 < n) (lt : n < 2 ^ (fuel + 1)) :
    (halve fuel n).1 % 2 = 1 ∧ n = (halve fuel n).1 * 2 ^ (halve fuel n).2 := by
  induction fuel generalizing n with
  | zero =>
    obtain rfl : n = 1 := by omega
    exact ⟨rfl, rfl⟩
  | succ fuel ih =>
    rw [halve]
    split
    · rename_i even
      have half : n / 2 < 2 ^ (fuel + 1) := by
        rw [Nat.pow_succ] at lt
        omega
      obtain ⟨odd, eq⟩ := ih (by omega) half
      refine ⟨odd, ?_⟩
      rw [Nat.pow_succ, ← Nat.mul_assoc, ← eq]
      omega
    · exact ⟨by omega, (Nat.mul_one n).symm⟩

theorem oddPart_spec (pos : 0 < n) :
    (oddPart n).1 % 2 = 1 ∧ n = (oddPart n).1 * 2 ^ (oddPart n).2 :=
  halve_spec pos Nat.lt_log2_self

/-- The test of an odd number from five on. -/
theorem isPrime_of_odd (le : 4 ≤ n) (odd : n % 2 = 1) :
    isPrime n = witnesses.all (passes n (oddPart (n - 1)).1 (oddPart (n - 1)).2) := by
  rw [isPrime, if_neg (by omega), if_neg (by omega), if_neg (by omega)]

/-! ## Primes pass

Modulo a prime the residues are a field. So the power of a base to the prime less
one is 1, by Fermat's theorem, and a 1 has no square roots but itself and its
opposite. -/

section Primes

variable [prime : Fact n.Prime]

theorem eq_one_of_cast (lt : x < n) (h : (x : ZMod n) = 1) : x = 1 := by
  rw [← Nat.cast_one, ZMod.natCast_eq_natCast_iff', Nat.mod_eq_of_lt lt,
    Nat.mod_eq_of_lt prime.out.one_lt] at h
  exact h

theorem eq_top_of_cast (lt : x < n) (h : (x : ZMod n) = -1) : x = n - 1 := by
  have pos := prime.out.pos
  have top : ((n - 1 : Nat) : ZMod n) = -1 := by
    rw [Nat.cast_sub pos, ZMod.natCast_self, Nat.cast_one, zero_sub]
  rw [← top, ZMod.natCast_eq_natCast_iff', Nat.mod_eq_of_lt lt, Nat.mod_eq_of_lt (by omega)] at h
  exact h

/-- There are only two square roots of 1 modulo a prime. -/
theorem eq_of_sq_eq_one (lt : x < n) (h : (x : ZMod n) ^ 2 = 1) : x = 1 ∨ x = n - 1 := by
  rw [sq, mul_self_eq_one_iff] at h
  exact h.imp (eq_one_of_cast lt) (eq_top_of_cast lt)

/-- Repeated squares that lead to 1 pass `-1`, unless they start at 1. -/
theorem reaches_of_pow_eq_one (lt : x < n) (one : (x : ZMod n) ^ 2 ^ r = 1) :
    x = 1 ∨ x = n - 1 ∨ squaresReach n (r - 1) x = true := by
  induction r generalizing x with
  | zero =>
    rw [pow_zero, pow_one] at one
    exact .inl (eq_one_of_cast lt one)
  | succ r ih =>
    cases r with
    | zero =>
      rw [zero_add, pow_one] at one
      exact (eq_of_sq_eq_one lt one).imp id .inl
    | succ r =>
      have square : ((Modular.mul x x n : Nat) : ZMod n) = x ^ 2 := by
        rw [Modular.mul, ZMod.natCast_mod, Nat.cast_mul, sq]
      have one' : ((Modular.mul x x n : Nat) : ZMod n) ^ 2 ^ (r + 1) = 1 := by
        rw [square, ← pow_mul, ← pow_succ']
        exact one
      have reach : squaresReach n (r + 1) x =
        (Modular.mul x x n == n - 1 || squaresReach n r (Modular.mul x x n)) := rfl
      -- The square of `x` leads to 1 in fewer steps. If it is 1 itself, `x` is one of the two
      -- roots.
      rcases ih (Modular.mul_lt prime.out.pos x x) one' with first | top | later
      · rw [first, Nat.cast_one] at square
        exact (eq_of_sq_eq_one lt square.symm).imp id .inl
      · exact .inr (.inr (by rw [Nat.add_sub_cancel, reach, top, beq_self_eq_true, Bool.true_or]))
      · rw [Nat.add_sub_cancel] at later
        exact .inr (.inr (by rw [Nat.add_sub_cancel, reach, later, Bool.or_true]))

theorem passes_of_prime (split : n - 1 = d * 2 ^ r) (pos : 0 < a) : passes n d r a = true := by
  by_cases le : n ≤ a
  · rw [passes, if_pos le]
  · have nonzero : (a : ZMod n) ≠ 0 := by
      rw [Ne, ZMod.natCast_eq_zero_iff]
      exact fun dvd => le (Nat.le_of_dvd pos dvd)
    have one : ((Modular.pow a d n : Nat) : ZMod n) ^ 2 ^ r = 1 := by
      rw [Modular.cast_pow (ZMod.natCast_self n), ← pow_mul, ← split,
        ZMod.pow_card_sub_one_eq_one nonzero]
    rw [passes, if_neg le]
    rcases reaches_of_pow_eq_one (Modular.pow_lt prime.out.pos a d) one with first | top | reach
    · simp only [first, beq_self_eq_true, Bool.true_or]
    · simp only [top, beq_self_eq_true, Bool.or_true, Bool.true_or]
    · simp only [reach, Bool.or_true]

end Primes

theorem isPrime_of_prime (prime : n.Prime) : isPrime n = true := by
  have : Fact n.Prime := ⟨prime⟩
  have two_le := prime.two_le
  by_cases small : n < 4
  · rw [isPrime, if_neg (by omega), if_pos small]
  · have odd : n % 2 = 1 := prime.mod_two_eq_one_iff_ne_two.mpr (by omega)
    obtain ⟨-, split⟩ := oddPart_spec (n := n - 1) (by omega)
    rw [isPrime_of_odd (by omega) odd, List.all_eq_true]
    intro a ha
    have positive : ∀ a ∈ witnesses, 0 < a := by decide
    exact passes_of_prime split (positive a ha)

/-! ## Composite numbers with a small factor

The least factor of a number below `41 ^ 2` that is no prime is one of the
bases. To that base the number fails, whatever the residues are to others. -/

section Factors

variable (one_lt : 1 < p) (dvd : p ∣ n)

include one_lt dvd

omit dvd in
theorem ne_one_of_dvd (hx : p ∣ x) : x ≠ 1 := by
  rintro rfl
  exact one_lt.ne' (Nat.dvd_one.mp hx)

theorem ne_top_of_dvd (pos : 0 < n) (hx : p ∣ x) : x ≠ n - 1 := by
  rintro rfl
  have one : p ∣ n - (n - 1) := Nat.dvd_sub dvd hx
  rw [Nat.sub_sub_self pos] at one
  exact one_lt.ne' (Nat.dvd_one.mp one)

/-- The squares of a multiple of a factor are multiples of it. -/
theorem squaresReach_of_dvd (pos : 0 < n) (hx : p ∣ x) : squaresReach n count x = false := by
  induction count generalizing x with
  | zero => rfl
  | succ count ih =>
    have square : p ∣ Modular.mul x x n := (Nat.dvd_mod_iff dvd).mpr (hx.mul_right x)
    rw [squaresReach, ih square, Bool.or_false, beq_eq_false_iff_ne]
    exact ne_top_of_dvd one_lt dvd pos square

/-- To a base that divides it a number fails: all that is met on the way is a multiple of
the base. -/
theorem passes_of_dvd (lt : p < n) (odd : d % 2 = 1) : passes n d r p = false := by
  have pos : 0 < n := Nat.zero_lt_of_lt lt
  have power : p ∣ Modular.pow p d n := by
    rw [Modular.pow_eq pos, Nat.dvd_mod_iff dvd]
    exact dvd_pow_self p (by omega)
  rw [passes, if_neg (Nat.not_le.mpr lt)]
  simp only [squaresReach_of_dvd one_lt dvd pos power, Bool.or_false, Bool.or_eq_false_iff,
    beq_eq_false_iff_ne]
  exact ⟨ne_one_of_dvd one_lt power, ne_top_of_dvd one_lt dvd pos power⟩

end Factors

theorem mem_witnesses (prime : p.Prime) (le : p ≤ 37) : p ∈ witnesses := by
  interval_cases p <;> first | decide | exact absurd prime (by norm_num)

theorem isPrime_of_dvd (composite : ¬ n.Prime) (prime : p.Prime) (le : p ≤ 37) (dvd : p ∣ n) :
    isPrime n = false := by
  by_cases tiny : n < 2
  · rw [isPrime, if_pos tiny]
  have ne : ∀ q, q.Prime → n ≠ q := fun q hq eq => composite (eq ▸ hq)
  have ne_two := ne 2 Nat.prime_two
  have ne_three := ne 3 Nat.prime_three
  have lt : p < n := Nat.lt_of_le_of_ne (Nat.le_of_dvd (by omega) dvd) (ne p prime).symm
  by_cases even : n % 2 = 0
  · rw [isPrime, if_neg tiny, if_neg (by omega), if_pos even]
  · obtain ⟨odd, -⟩ := oddPart_spec (n := n - 1) (by omega)
    rw [isPrime_of_odd (by omega) (by omega), List.all_eq_false]
    refine ⟨p, mem_witnesses prime le, ?_⟩
    rw [passes_of_dvd prime.one_lt dvd lt odd]
    exact Bool.false_ne_true

theorem isPrime_of_lt_two (lt : n < 2) : isPrime n = false :=
  if_pos lt

/-- Below the square of the first prime after the bases the test decides. -/
theorem isPrime_iff (lt : n < 1681) : isPrime n = true ↔ n.Prime := by
  refine ⟨fun h => ?_, isPrime_of_prime⟩
  by_contra composite
  by_cases tiny : n < 2
  · rw [isPrime_of_lt_two tiny] at h
    exact nomatch h
  · have prime : n.minFac.Prime := Nat.minFac_prime (by omega)
    have square : n.minFac ^ 2 ≤ n := Nat.minFac_sq_le_self (by omega) composite
    have below : n.minFac < 41 := by
      by_contra le
      have := Nat.pow_le_pow_left (Nat.not_lt.mp le) 2
      omega
    -- There is no prime between 37 and 41.
    have small : n.minFac ≤ 37 := by
      by_contra above
      generalize n.minFac = q at *
      interval_cases q <;> exact absurd prime (by norm_num)
    rw [isPrime_of_dvd composite prime small n.minFac_dvd] at h
    exact nomatch h

end Prime

/-! ## In machine words -/

namespace Word

/-- The zeros below the lowest one among so many binary digits. -/
def trailingZeros : (width n : Nat) → Nat
  | 0, _ => 0
  | width + 1, n => if n % 2 = 0 then trailingZeros width (n / 2) + 1 else 0

/-- A shift by fewer places than a word has. -/
def shiftRight? (n places : Nat) : Option Nat :=
  if places < 64 then some (n >>> places) else none

def oddPart? (n : Nat) : Option (Nat × Nat) := do
  let r := trailingZeros 64 n
  let d ← shiftRight? n r
  return (d, r)

def squaresReach? (n : Nat) : (count x : Nat) → Option Bool
  | 0, _ => some false
  | count + 1, x => do
    let y ← mulMod? x x n
    let top ← sub? n 1
    if y = top then some true else squaresReach? n count y

def passes? (n d r a : Nat) : Option Bool :=
  if n ≤ a then some true
  else do
    let x ← powMod? a d n
    let top ← sub? n 1
    if x = 1 ∨ x = top then some true else squaresReach? n (r - 1) x

def passesAll? (n d r : Nat) : List Nat → Option Bool
  | [] => some true
  | a :: bases => do
    if ← passes? n d r a then passesAll? n d r bases else some false

def isPrime? (n : Nat) : Option Bool :=
  if n < 2 then some false
  else if n < 4 then some true
  else if n % 2 = 0 then some false
  else do
    let m ← sub? n 1
    let (d, r) ← oddPart? m
    passesAll? n d r Prime.witnesses

variable {n d r a x count width fuel : Nat}

/-- Halving while a number is even is one shift, and by fewer places than it has
digits. -/
theorem halve_eq (pos : 0 < n) (lt : n < 2 ^ (fuel + 1)) (fits : n < 2 ^ width) :
    Prime.halve fuel n = (n >>> trailingZeros width n, trailingZeros width n) ∧
      trailingZeros width n < width := by
  induction fuel generalizing n width with
  | zero =>
    obtain rfl : n = 1 := by omega
    cases width with
    | zero => exact absurd fits (by decide)
    | succ width => exact ⟨rfl, Nat.succ_pos width⟩
  | succ fuel ih =>
    cases width with
    | zero => omega
    | succ width =>
      rw [Prime.halve, trailingZeros]
      split
      · rename_i even
        rw [Nat.pow_succ] at lt fits
        have fits' : n / 2 < 2 ^ width := by omega
        obtain ⟨eq, below⟩ := ih (by omega) (by omega) fits'
        -- One place for this half, and the places of the rest.
        rw [eq, Nat.shiftRight_succ_inside]
        exact ⟨rfl, Nat.succ_lt_succ below⟩
      · exact ⟨rfl, Nat.succ_pos width⟩

theorem oddPart?_eq (pos : 0 < n) (word : n < wordSize) :
    oddPart? n = some (Prime.oddPart n) := by
  have fits : n < 2 ^ 64 := word
  obtain ⟨eq, below⟩ := halve_eq pos Nat.lt_log2_self fits
  rw [oddPart?, shiftRight?, if_pos below, Prime.oddPart, eq]
  rfl

theorem squaresReach?_eq (word : n < wordSize) (lt : x < n) :
    squaresReach? n count x = some (Prime.squaresReach n count x) := by
  induction count generalizing x with
  | zero => rfl
  | succ count ih =>
    have one_le : 1 ≤ n := Nat.zero_lt_of_lt lt
    rw [squaresReach?, mulMod?_of_lt word lt lt, Option.bind_eq_bind, Option.bind_some,
      sub?_of_le one_le, Option.bind_some, ih (Modular.mul_lt one_le x x), Prime.squaresReach]
    split
    · rename_i top
      rw [beq_iff_eq.mpr top, Bool.true_or]
    · rename_i other
      rw [beq_eq_false_iff_ne.mpr other, Bool.false_or]

theorem passes?_eq (word : n < wordSize) (one_lt : 1 < n) (exponent : d < wordSize) :
    passes? n d r a = some (Prime.passes n d r a) := by
  have one_le : 1 ≤ n := Nat.le_of_lt one_lt
  rw [passes?, Prime.passes]
  split
  · rfl
  · rw [powMod?_of_lt word one_lt a exponent, Option.bind_eq_bind, Option.bind_some,
      sub?_of_le one_le, Option.bind_some, squaresReach?_eq word (Modular.pow_lt one_le a d)]
    split
    · rename_i decided
      rcases decided with first | top
      · simp only [first, beq_self_eq_true, Bool.true_or]
      · simp only [top, beq_self_eq_true, Bool.or_true, Bool.true_or]
    · rename_i other
      obtain ⟨first, top⟩ := not_or.mp other
      simp only [beq_eq_false_iff_ne.mpr first, beq_eq_false_iff_ne.mpr top, Bool.false_or]

theorem passesAll?_eq (word : n < wordSize) (one_lt : 1 < n) (exponent : d < wordSize)
    (bases : List Nat) : passesAll? n d r bases = some (bases.all (Prime.passes n d r)) := by
  induction bases with
  | nil => rfl
  | cons a bases ih =>
    rw [passesAll?, passes?_eq word one_lt exponent, Option.bind_eq_bind, Option.bind_some, ih,
      List.all_cons]
    cases Prime.passes n d r a <;> rfl

/-- The test of a word stays in words. -/
theorem isPrime?_eq (word : n < wordSize) : isPrime? n = some (Prime.isPrime n) := by
  rw [isPrime?, Prime.isPrime]
  split
  · rfl
  split
  · rfl
  split
  · rfl
  · have pos : 0 < n - 1 := by omega
    have below : n - 1 < wordSize := Nat.lt_of_le_of_lt (Nat.sub_le n 1) word
    obtain ⟨-, split⟩ := Prime.oddPart_spec pos
    have exponent : (Prime.oddPart (n - 1)).1 < wordSize := by
      refine Nat.lt_of_le_of_lt ?_ below
      conv_rhs => rw [split]
      exact Nat.le_mul_of_pos_right _ (Nat.two_pow_pos _)
    rw [sub?_of_le (by omega), Option.bind_eq_bind, Option.bind_some, oddPart?_eq pos below,
      Option.bind_eq_bind, Option.bind_some]
    exact passesAll?_eq word (by omega) exponent Prime.witnesses

end Word

/-! ## The searches

A search may miss a prime in one way only, that the test rejects it. As the test
rejects none, a prime is in the list, unless the list ends above it. -/

namespace Prime

variable {n : Nat}

/-- What the test says of a number; and a prime is met by every search that gets
to it. -/
structure IsTested (n : Nat) : Prop where
  words : Word.isPrime? n = some (isPrime n)
  prime : n.Prime → isPrime n = true
  small : n < 2 → isPrime n = false
  composite : ∀ p ≤ 37, p.Prime → p ∣ n → ¬ n.Prime → isPrime n = false
  decides : n < 1681 → (isPrime n = true ↔ n.Prime)
  listed : n.Prime → ∀ bits count degree exclude primes,
    listBelow bits count degree exclude = .ok primes → n < Nat.pow 2 bits →
    n % (2 * degree) = 1 → n ∉ exclude → n ∈ primes ∨ ∀ p ∈ primes, n < p
  found : n.Prime → ∀ bound degree answer, largestBelow bound degree = .ok answer → n < bound →
    n % (2 * degree) = 1 → ∃ p, answer = some p ∧ n ≤ p

/-- The test of a word stays in words, rejects no prime, and rejects what is no
prime but has a small factor. -/
theorem word_isTested (word : n < wordSize) : IsTested n where
  words := Word.isPrime?_eq word
  prime := isPrime_of_prime
  small := isPrime_of_lt_two
  composite := fun _ le prime dvd composite => isPrime_of_dvd composite prime le dvd
  decides := isPrime_iff
  listed := by
    intro prime bits count degree exclude primes list lt residue included
    have chain : IsChain (Nat.pow 2 bits) degree n := ⟨lt, residue, isPrime_of_prime prime⟩
    by_cases mem : n ∈ primes
    · exact .inl mem
    · exact .inr ((areLargest_of_listBelow list).greatest n ⟨chain, included⟩ mem)
  found := by
    intro prime bound degree answer search lt residue
    have chain : IsChain bound degree n := ⟨lt, residue, isPrime_of_prime prime⟩
    have greatest := findsGreatest_of_largestBelow search
    cases answer with
    | none => exact absurd chain (greatest.none.mp rfl n)
    | some p => exact ⟨p, rfl, ((greatest.some p).mp rfl).2 chain⟩

/-- The composite number `7 * 13 * 19` passes the weaker test of Fermat to every
base that has no factor in common with it. And 97 is met below 113. -/
theorem word_isTested_carmichael :
    (1729 < wordSize ∧ Word.isPrime? 1729 = some false) ∧
      Nat.Prime 97 ∧ isPrime 97 = true ∧ ∃ p, largestBelow 113 4 = .ok (some p) ∧ 97 ≤ p := by
  have word : 1729 < wordSize := by decide
  have composite : ¬ Nat.Prime 1729 := by norm_num
  have tested := word_isTested word
  have rejected := tested.composite 7 (by decide) (by norm_num) (by decide) composite
  have prime : Nat.Prime 97 := by norm_num
  have tested' := word_isTested (n := 97) (by decide)
  have search : largestBelow 113 4 = .ok (some 97) := rfl
  obtain ⟨p, eq, le⟩ := tested'.found prime 113 4 _ search (by decide) (by decide)
  exact ⟨⟨word, rejected ▸ tested.words⟩, prime, tested'.prime prime, p, eq ▸ search, le⟩

end Prime

end CipherFlow
