import CipherFlow.Proofs.Slots.Encoding
import Mathlib.Algebra.BigOperators.Ring.Finset
import Mathlib.Tactic.Ring

/-!
# Transforms as sums

In exact arithmetic the transforms by halving give the values of a polynomial at
all powers of a root of unity, as the transforms that an encoder takes from
elsewhere do but for rounding. `IsRoot.transform_eq` is by induction on the number
of halvings: the entries at even and at odd positions are the coefficients of two
polynomials at the square of the root. `IsRoot.transformHalves_eq` starts with the
lower and the upper half instead: half of the order turns even powers of the root
by 1 and odd ones by -1, so the sum of the halves has the values at even powers and
their difference those at odd ones.
-/

namespace CipherFlow.Fourier

variable {α : Type} [CommRing α] {root : Nat → Nat → α} {k m n i p : Nat} {xs : List α}

/-- The value of a polynomial at a power of a root whose powers are given. -/
def valueAt (root : Nat → α) (xs : List α) (p : Nat) : α :=
  ∑ j ∈ Finset.range xs.length, xs.getD j 0 * root (j * p)

/-- The values at the powers of a root below `size`. -/
def sums (root : Nat → α) (size : Nat) (xs : List α) : List α :=
  (List.range size).map (valueAt root xs)

/-- The values at the odd powers of a root below `2 * size`. -/
def oddSums (root : Nat → α) (size : Nat) (xs : List α) : List α :=
  (List.range size).map fun t => valueAt root xs (2 * t + 1)

/-- `root n j` is the power `j` of a root of unity of order `n`, for orders that
are powers of two. -/
structure IsRoot (root : Nat → Nat → α) : Prop where
  zero : ∀ n, root n 0 = 1
  add : ∀ n i j, root n (i + j) = root n i * root n j
  double : ∀ n j, root (2 * n) (2 * j) = root n j
  half : ∀ k, root (2 ^ (k + 1)) (2 ^ k) = -1

/-! ## Powers of roots -/

theorem IsRoot.mul (h : IsRoot root) (n i j : Nat) : root n (i * j) = root n j ^ i := by
  induction i with
  | zero => rw [Nat.zero_mul, h.zero, pow_zero]
  | succ i ih => rw [Nat.succ_mul, h.add, ih, pow_succ]

theorem IsRoot.whole (h : IsRoot root) (k : Nat) : root (2 ^ k) (2 ^ k) = 1 :=
  calc
    root (2 ^ k) (2 ^ k) = root (2 * 2 ^ k) (2 * 2 ^ k) := (h.double _ _).symm
    _ = root (2 ^ (k + 1)) (2 ^ k + 2 ^ k) := congrArg₂ root Nat.pow_succ'.symm (Nat.two_mul _)
    _ = 1 := by rw [h.add, h.half, neg_one_mul, neg_neg]

theorem IsRoot.opposite (h : IsRoot root) (k t : Nat) :
    root (2 ^ (k + 1)) (2 ^ k + t) = -root (2 ^ (k + 1)) t := by
  rw [h.add, h.half, neg_one_mul]

/-- The values at powers of a root repeat. -/
theorem IsRoot.valueAt_add (h : IsRoot root) (k : Nat) (xs : List α) (p : Nat) :
    valueAt (root (2 ^ k)) xs (2 ^ k + p) = valueAt (root (2 ^ k)) xs p := by
  refine Finset.sum_congr rfl fun j _ => ?_
  rw [Nat.mul_add, h.add, h.mul, h.whole, one_pow, one_mul]

/-! ## Halving -/

omit [CommRing α] in
/-- A list of even length is split in halves. -/
theorem length_split {m : Nat} (xs : List α) (h : xs.length = m + m) :
    (split xs).1.length = m ∧ (split xs).2.length = m := by
  induction xs using split.induct generalizing m with
  | case1 x y rest evens odds eq ih =>
    cases m with
    | zero => exact nomatch h
    | succ m =>
      have rest : rest.length = m + m := by
        simp only [List.length_cons] at h
        omega
      obtain ⟨left, right⟩ := ih rest
      rw [split, List.length_cons, List.length_cons, left, right]
      exact ⟨rfl, rfl⟩
  | case2 x =>
    rw [List.length_singleton] at h
    omega
  | case3 =>
    rw [List.length_nil] at h
    rw [split, List.length_nil]
    omega

theorem getD_split (xs : List α) (i : Nat) :
    (split xs).1.getD i 0 = xs.getD (2 * i) 0 ∧ (split xs).2.getD i 0 = xs.getD (2 * i + 1) 0 := by
  induction xs using split.induct generalizing i with
  | case1 x y rest evens odds eq ih =>
    cases i with
    | zero => exact ⟨rfl, rfl⟩
    | succ i => exact ih i
  | case2 x => cases i <;> exact ⟨rfl, rfl⟩
  | case3 => exact ⟨rfl, rfl⟩

theorem sum_range_double (f : Nat → α) (m : Nat) :
    ∑ j ∈ Finset.range (m + m), f j =
      ∑ i ∈ Finset.range m, f (2 * i) + ∑ i ∈ Finset.range m, f (2 * i + 1) := by
  induction m with
  | zero => simp
  | succ m ih =>
    have next : m + 1 + (m + 1) = m + m + 1 + 1 := by omega
    rw [next, Finset.sum_range_succ, Finset.sum_range_succ, ih, Finset.sum_range_succ,
      Finset.sum_range_succ, ← Nat.two_mul]
    ring

/-- The value of a polynomial from those of its even and its odd part. -/
theorem IsRoot.valueAt_split (h : IsRoot root) (length : xs.length = m + m) (n p : Nat) :
    valueAt (root (2 * n)) xs p = valueAt (root n) (split xs).1 p +
      root (2 * n) p * valueAt (root n) (split xs).2 p := by
  obtain ⟨left, right⟩ := length_split xs length
  simp only [valueAt, left, right, length, sum_range_double, Finset.mul_sum]
  refine congrArg₂ (· + ·) (Finset.sum_congr rfl fun i _ => ?_) (Finset.sum_congr rfl fun i _ => ?_)
  · rw [(getD_split xs i).1, Nat.mul_assoc, h.double]
  · rw [(getD_split xs i).2, Nat.add_mul, Nat.one_mul, Nat.mul_assoc, h.add, h.double]
    ring

omit [CommRing α] in
theorem halfRoots_eq (root : Nat → Nat → α) (k : Nat) :
    halfRoots root (Nat.pow 2 (k + 1)) = (List.range (2 ^ k)).map (root (2 ^ (k + 1))) := by
  have half : Nat.pow 2 (k + 1) / 2 = 2 ^ k := Nat.mul_div_cancel _ two_pos
  rw [halfRoots, half]
  rfl

/-- A butterfly of two lists takes their entries with the root's power between. -/
theorem zipWith_halfRoots (f : α → α → α) (root : Nat → Nat → α) (k : Nat) (lows highs : Nat → α) :
    List.zipWith f ((List.range (2 ^ k)).map lows)
        (List.zipWith (· * ·) (halfRoots root (Nat.pow 2 (k + 1)))
          ((List.range (2 ^ k)).map highs)) =
      (List.range (2 ^ k)).map fun t => f (lows t) (root (2 ^ (k + 1)) t * highs t) := by
  rw [halfRoots_eq, List.zipWith_map, List.zipWith_self, List.zipWith_map, List.zipWith_self]

/-- The transform by halving gives the values at all powers of the root. -/
theorem IsRoot.transform_eq (h : IsRoot root) (length : xs.length = 2 ^ k) :
    transform root k xs = sums (root (2 ^ k)) (2 ^ k) xs := by
  induction k generalizing xs with
  | zero =>
    obtain ⟨x, rfl⟩ := List.length_eq_one_iff.mp length
    simp [transform, sums, valueAt, h.zero]
  | succ k ih =>
    have double : 2 ^ (k + 1) = 2 ^ k + 2 ^ k := Nat.two_pow_succ k
    rw [double] at length
    obtain ⟨left, right⟩ := length_split xs length
    have value (p : Nat) := h.valueAt_split length (2 ^ k) p
    rw [← Nat.pow_succ'] at value
    have lower : List.zipWith (· + ·) (transform root k (split xs).1)
        (List.zipWith (· * ·) (halfRoots root (Nat.pow 2 (k + 1)))
          (transform root k (split xs).2)) =
        (List.range (2 ^ k)).map (valueAt (root (2 ^ (k + 1))) xs) := by
      rw [ih left, ih right, sums, sums, zipWith_halfRoots]
      exact List.map_congr_left fun t _ => (value t).symm
    have upper : List.zipWith (· - ·) (transform root k (split xs).1)
        (List.zipWith (· * ·) (halfRoots root (Nat.pow 2 (k + 1)))
          (transform root k (split xs).2)) =
        (List.range (2 ^ k)).map fun t => valueAt (root (2 ^ (k + 1))) xs (2 ^ k + t) := by
      rw [ih left, ih right, sums, sums, zipWith_halfRoots]
      refine List.map_congr_left fun t _ => ?_
      rw [value, h.valueAt_add, h.valueAt_add, h.opposite, neg_mul, ← sub_eq_add_neg]
    rw [sums, double, List.range_add, List.map_append, List.map_map, ← double]
    exact congrArg₂ (· ++ ·) lower upper

/-- The transform at odd powers gives the values at these. -/
theorem IsRoot.transformOdd_eq (h : IsRoot root) (length : xs.length = 2 ^ k) :
    transformOdd root k xs = oddSums (root (2 ^ (k + 1))) (2 ^ k) xs := by
  rw [transformOdd, halfRoots_eq]
  have shared : (List.zipWith (· * ·) xs ((List.range (2 ^ k)).map (root (2 ^ (k + 1))))).length =
      2 ^ k := by
    rw [List.length_zipWith, List.length_map, List.length_range, length, Nat.min_self]
  rw [h.transform_eq shared]
  refine List.map_congr_left fun t _ => ?_
  rw [valueAt, valueAt, shared, length]
  refine Finset.sum_congr rfl fun j hj => ?_
  have lt := Finset.mem_range.mp hj
  have entry : (List.zipWith (· * ·) xs
      ((List.range (2 ^ k)).map (root (2 ^ (k + 1))))).getD j 0 =
        xs.getD j 0 * root (2 ^ (k + 1)) j := by
    simp [List.getD_eq_getElem?_getD, lt, length]
  have power : j + 2 * (j * t) = j * (2 * t + 1) := by ring
  rw [entry, mul_assoc, ← h.double (2 ^ k), ← Nat.pow_succ', ← h.add, power]

/-! ## Both halves of a list -/

omit [CommRing α] in
/-- Entries at even and at odd places, taken in turn. -/
theorem interleave_map_range (f : Nat → α) (m : Nat) :
    interleave ((List.range m).map fun t => f (2 * t)) ((List.range m).map fun t => f (2 * t + 1)) =
      (List.range (2 * m)).map f := by
  induction m generalizing f with
  | zero => rfl
  | succ m ih =>
    have next : 2 * (m + 1) = 2 * m + 1 + 1 := by omega
    rw [next, List.range_succ_eq_map, List.range_succ_eq_map (n := 2 * m + 1),
      List.range_succ_eq_map (n := 2 * m)]
    simp only [List.map_cons, List.map_map, interleave]
    exact congrArg (f 0 :: f 1 :: ·) (ih fun t => f (t + 2))

/-- The value of a polynomial from those of its halves. -/
theorem IsRoot.valueAt_halves (h : IsRoot root) (length : xs.length = m + m) (n p : Nat) :
    valueAt (root n) xs p = ∑ i ∈ Finset.range m,
      (xs.getD i 0 + root n (m * p) * xs.getD (m + i) 0) * root n (i * p) := by
  rw [valueAt, length, Finset.sum_range_add, ← Finset.sum_add_distrib]
  refine Finset.sum_congr rfl fun i _ => ?_
  rw [Nat.add_mul, h.add]
  ring

theorem getD_zipWith_halves (f : α → α → α) (length : xs.length = m + m) {i : Nat} (lt : i < m) :
    (List.zipWith f (xs.take m) (xs.drop m)).getD i 0 = f (xs.getD i 0) (xs.getD (m + i) 0) := by
  have low : i < xs.length := by omega
  have high : m + i < xs.length := by omega
  simp [List.getD_eq_getElem?_getD, List.getElem?_zipWith, lt, low, high]

/-- The value of a list of joined halves is that of the whole list, if that is what
joining them does to each entry. -/
theorem IsRoot.valueAt_zipWith_halves (h : IsRoot root) (f : α → α → α)
    (length : xs.length = m + m) (n p : Nat)
    (joined : ∀ x y : α, f x y = x + root n (m * p) * y) :
    valueAt (root n) (List.zipWith f (xs.take m) (xs.drop m)) p = valueAt (root n) xs p := by
  have half : (List.zipWith f (xs.take m) (xs.drop m)).length = m := by
    rw [List.length_zipWith, List.length_take, List.length_drop]
    omega
  rw [h.valueAt_halves length, valueAt, half]
  refine Finset.sum_congr rfl fun i hi => ?_
  rw [getD_zipWith_halves f length (Finset.mem_range.mp hi), joined]

/-- After half of the order even powers of the root are back at 1. -/
theorem IsRoot.half_even (h : IsRoot root) (k t : Nat) :
    root (2 ^ (k + 1)) (2 ^ k * (2 * t)) = 1 := by
  rw [Nat.mul_comm, h.mul, h.half, pow_mul, neg_one_sq, one_pow]

/-- After half of the order odd powers of the root are opposite to 1. -/
theorem IsRoot.half_odd (h : IsRoot root) (k t : Nat) :
    root (2 ^ (k + 1)) (2 ^ k * (2 * t + 1)) = -1 := by
  rw [Nat.mul_add, h.add, h.half_even, Nat.mul_one, h.half, one_mul]

/-- The transform that joins the halves first gives the values at all powers of the
root. -/
theorem IsRoot.transformHalves_eq (h : IsRoot root) (length : xs.length = 2 ^ (k + 1)) :
    transformHalves root k xs = sums (root (2 ^ (k + 1))) (2 ^ (k + 1)) xs := by
  have double : 2 ^ (k + 1) = 2 ^ k + 2 ^ k := Nat.two_pow_succ k
  rw [double] at length
  have half (f : α → α → α) :
      (List.zipWith f (xs.take (2 ^ k)) (xs.drop (2 ^ k))).length = 2 ^ k := by
    rw [List.length_zipWith, List.length_take, List.length_drop]
    omega
  have even (t : Nat) : valueAt (root (2 ^ k))
      (List.zipWith (· + ·) (xs.take (2 ^ k)) (xs.drop (2 ^ k))) t =
        valueAt (root (2 ^ (k + 1))) xs (2 * t) := by
    rw [← h.valueAt_zipWith_halves (· + ·) length (2 ^ (k + 1)) (2 * t) fun x y => by
      rw [h.half_even, one_mul]]
    refine Finset.sum_congr rfl fun j _ => ?_
    rw [← h.double (2 ^ k), ← Nat.pow_succ', Nat.mul_left_comm]
  have odd (t : Nat) : valueAt (root (2 ^ (k + 1)))
      (List.zipWith (· - ·) (xs.take (2 ^ k)) (xs.drop (2 ^ k))) (2 * t + 1) =
        valueAt (root (2 ^ (k + 1))) xs (2 * t + 1) :=
    h.valueAt_zipWith_halves (· - ·) length _ _ fun x y => by
      rw [h.half_odd, neg_one_mul, sub_eq_add_neg]
  rw [transformHalves]
  show interleave (transform root k (List.zipWith (· + ·) (xs.take (2 ^ k)) (xs.drop (2 ^ k))))
    (transformOdd root k (List.zipWith (· - ·) (xs.take (2 ^ k)) (xs.drop (2 ^ k)))) = _
  rw [h.transform_eq (half _), h.transformOdd_eq (half _), sums, oddSums,
    List.map_congr_left fun t _ => even t, List.map_congr_left fun t _ => odd t,
    interleave_map_range, ← Nat.pow_succ']
  rfl

end CipherFlow.Fourier
