import CipherFlow.Proofs.Ring.Image

/-!
# Integer polynomials

Sums and products in `Z[X] / (X ^ n + 1)`, as operations on coefficient lists,
and how large their coefficients can be. A product is a sum of multiples of
shifts. A shift through `X ^ n = -1` changes signs only, so the coefficients of
a product are at most the largest one of a factor, times the sum of the
magnitudes of the other.
-/

namespace CipherFlow.Ring

/-! ## Operations -/

/-- The sum of two lists of coefficients. -/
def addInts (a b : List Int) : List Int :=
  List.zipWith (· + ·) a b

/-- The product with `X`: the last coefficient comes back as the first, with
the other sign. -/
def shiftInts (c : List Int) : List Int :=
  -c.getLastD 0 :: c.dropLast

/-- The negacyclic product, by Horner's rule. -/
def mulInts : (a b : List Int) → List Int
  | [], b => b.map fun _ => 0
  | k :: a, b => addInts (b.map (k * ·)) (shiftInts (mulInts a b))

/-- The sum of the magnitudes of coefficients. -/
def sumAbs (c : List Int) : Nat :=
  (c.map Int.natAbs).sum

variable {n m k : Nat} {a b c : List Int}

/-! ## Lengths -/

theorem length_addInts (ha : a.length = n) (hb : b.length = n) : (addInts a b).length = n := by
  rw [addInts, List.length_zipWith, ha, hb, Nat.min_self]

theorem length_shiftInts (hn : n ≠ 0) (hc : c.length = n) : (shiftInts c).length = n := by
  rw [shiftInts, List.length_cons, List.length_dropLast]
  omega

theorem length_mulInts (hn : n ≠ 0) (hb : b.length = n) (a : List Int) :
    (mulInts a b).length = n := by
  induction a with
  | nil => rw [mulInts, List.length_map, hb]
  | cons v a ih =>
    exact length_addInts (by rw [List.length_map, hb]) (length_shiftInts hn ih)

/-! ## Magnitudes -/

theorem addInts_le (ha : ∀ v ∈ a, v.natAbs ≤ m) (hb : ∀ v ∈ b, v.natAbs ≤ k) :
    ∀ v ∈ addInts a b, v.natAbs ≤ m + k := by
  intro v hv
  obtain ⟨i, hi, rfl⟩ := List.mem_iff_getElem.mp hv
  rw [addInts, List.length_zipWith] at hi
  simp only [addInts, List.getElem_zipWith]
  have left := ha _ (List.getElem_mem (show i < a.length by omega))
  have right := hb _ (List.getElem_mem (show i < b.length by omega))
  exact (Int.natAbs_add_le _ _).trans (Nat.add_le_add left right)

theorem map_mul_le (hb : ∀ v ∈ b, v.natAbs ≤ m) (w : Int) :
    ∀ v ∈ b.map (w * ·), v.natAbs ≤ w.natAbs * m := by
  intro v hv
  obtain ⟨r, hr, rfl⟩ := List.mem_map.mp hv
  rw [Int.natAbs_mul]
  exact Nat.mul_le_mul_left _ (hb r hr)

/-- The shift changes signs and places only. -/
theorem shiftInts_le (hc : ∀ v ∈ c, v.natAbs ≤ m) : ∀ v ∈ shiftInts c, v.natAbs ≤ m := by
  intro v hv
  rcases List.mem_cons.mp hv with rfl | hv
  · rw [Int.natAbs_neg, List.getLastD_eq_getLast?]
    cases last : c.getLast? with
    | none => exact Nat.zero_le m
    | some w => exact hc w (List.mem_of_getLast? last)
  · exact hc v (List.mem_of_mem_dropLast hv)

/-- The coefficients of a product. -/
theorem mulInts_le (hb : ∀ v ∈ b, v.natAbs ≤ m) (a : List Int) :
    ∀ v ∈ mulInts a b, v.natAbs ≤ sumAbs a * m := by
  induction a with
  | nil =>
    intro v hv
    obtain ⟨_, -, rfl⟩ := List.mem_map.mp hv
    exact Nat.zero_le _
  | cons v a ih =>
    have sum : sumAbs (v :: a) * m = v.natAbs * m + sumAbs a * m := Nat.add_mul _ _ _
    rw [sum]
    exact addInts_le (map_mul_le hb v) (shiftInts_le ih)

/-! ## Coefficients -/

theorem getD_addInts (length : a.length = b.length) (k : Nat) :
    (addInts a b).getD k 0 = a.getD k 0 + b.getD k 0 := by
  unfold addInts
  induction a generalizing b k with
  | nil =>
    obtain rfl := List.length_eq_zero_iff.mp length.symm
    rfl
  | cons v a ih =>
    cases b with
    | nil => cases length
    | cons w b =>
      cases k with
      | zero => rfl
      | succ k => simpa using ih (Nat.succ.inj length) k

theorem getD_map_mul (v : Int) (b : List Int) (k : Nat) :
    (b.map (v * ·)).getD k 0 = v * b.getD k 0 := by
  rw [List.getD_eq_getElem?_getD, List.getElem?_map, List.getD_eq_getElem?_getD]
  cases b[k]? <;> simp

theorem getD_shiftInts_zero (hc : c.length = n) :
    (shiftInts c).getD 0 0 = -c.getD (n - 1) 0 := by
  rw [shiftInts, List.getD_cons_zero, List.getLastD_eq_getLast?, List.getLast?_eq_getElem?, hc,
    List.getD_eq_getElem?_getD]

theorem getD_shiftInts_succ (hc : c.length = n) (hk : k + 1 < n) :
    (shiftInts c).getD (k + 1) 0 = c.getD k 0 := by
  rw [shiftInts, List.getD_cons_succ, List.getD_eq_getElem?_getD, List.getElem?_dropLast,
    if_pos (by omega), List.getD_eq_getElem?_getD]

/-- A coefficient of the product, term by term: what lies at `X ^ n` and above
comes back with the other sign. -/
theorem getD_mulInts (hb : b.length = n) (ha : a.length ≤ n) (hk : k < n) :
    (mulInts a b).getD k 0 = ∑ i ∈ Finset.range a.length,
      a.getD i 0 * if i ≤ k then b.getD (k - i) 0 else -b.getD (n + k - i) 0 := by
  induction a generalizing k with
  | nil =>
    have at_k : (b.map fun _ => (0 : Int))[k]? = some 0 := by
      rw [List.getElem?_map, List.getElem?_eq_getElem (hb ▸ hk), Option.map_some]
    rw [mulInts, List.getD_eq_getElem?_getD, at_k]
    rfl
  | cons v a ih =>
    have fewer : a.length < n := ha
    have product : (mulInts a b).length = n := length_mulInts (by omega) hb a
    have shifted := length_shiftInts (by omega) product
    rw [mulInts, getD_addInts (by rw [List.length_map, hb, shifted]), getD_map_mul,
      List.length_cons, Finset.sum_range_succ', add_comm]
    congr 1
    cases k with
    | zero =>
      rw [getD_shiftInts_zero product, ih fewer.le (by omega), ← Finset.sum_neg_distrib]
      refine Finset.sum_congr rfl fun i hi => ?_
      have lt : i < a.length := Finset.mem_range.mp hi
      rw [if_pos (by omega), if_neg (by omega), List.getD_cons_succ, mul_neg,
        show n - 1 - i = n + 0 - (i + 1) by omega]
    | succ k =>
      rw [getD_shiftInts_succ product hk, ih fewer.le (by omega)]
      refine Finset.sum_congr rfl fun i _ => ?_
      simp only [List.getD_cons_succ, Nat.add_le_add_iff_right, Nat.add_sub_add_right,
        ← Nat.add_assoc]

/-! ## Values -/

section Values

variable {A : Type} [CommRing A] {x : A}

/-- Homomorphisms take values to values. -/
theorem map_evaluateIntsAt {A' : Type} [CommRing A'] (f : A →+* A') (c : List Int) :
    f (evaluateIntsAt x c) = evaluateIntsAt (f x) c := by
  induction c with
  | nil => exact map_zero f
  | cons v c ih => rw [evaluateIntsAt, map_add, map_mul, map_intCast, ih, evaluateIntsAt]

theorem evaluateIntsAt_append (a b : List Int) :
    evaluateIntsAt x (a ++ b) = evaluateIntsAt x a + x ^ a.length * evaluateIntsAt x b := by
  induction a with
  | nil => simp [evaluateIntsAt]
  | cons c a ih =>
    simp only [List.cons_append, evaluateIntsAt, ih, List.length_cons, pow_succ]
    ring

theorem evaluateIntsAt_add (length : a.length = b.length) :
    evaluateIntsAt x (addInts a b) = evaluateIntsAt x a + evaluateIntsAt x b := by
  unfold addInts
  induction a generalizing b with
  | nil =>
    obtain rfl := List.length_eq_zero_iff.mp length.symm
    simp [evaluateIntsAt]
  | cons v a ih =>
    cases b with
    | nil => cases length
    | cons w b =>
      simp only [List.zipWith_cons_cons, evaluateIntsAt, ih (Nat.succ.inj length), Int.cast_add]
      ring

theorem evaluateIntsAt_map_mul (v : Int) (b : List Int) :
    evaluateIntsAt x (b.map (v * ·)) = v * evaluateIntsAt x b := by
  induction b with
  | nil => simp [evaluateIntsAt]
  | cons w b ih =>
    simp only [List.map_cons, evaluateIntsAt, ih, Int.cast_mul]
    ring

theorem evaluateIntsAt_map_zero (b : List Int) :
    evaluateIntsAt x (b.map fun _ => 0) = 0 := by
  induction b with
  | nil => rfl
  | cons w b ih =>
    rw [List.map_cons, evaluateIntsAt, ih]
    simp

theorem evaluateIntsAt_shift (hn : n ≠ 0) (hx : x ^ n = -1) (length : c.length = n) :
    evaluateIntsAt x (shiftInts c) = x * evaluateIntsAt x c := by
  have ne : c ≠ [] := fun nil => hn (by rw [← length, nil, List.length_nil])
  have last : c.getLastD 0 = c.getLast ne := by
    rw [List.getLastD_eq_getLast?, List.getLast?_eq_some_getLast ne, Option.getD_some]
  have power : x * x ^ c.dropLast.length = -1 := by
    rw [← hx, ← pow_succ', List.length_dropLast, length, Nat.sub_add_cancel (by omega)]
  conv_rhs => rw [← List.dropLast_append_getLast ne, evaluateIntsAt_append]
  rw [shiftInts, last]
  simp only [evaluateIntsAt]
  push_cast
  linear_combination (-(c.getLast ne : A)) * power

theorem evaluateIntsAt_mul (hn : n ≠ 0) (hx : x ^ n = -1) (length : b.length = n)
    (a : List Int) :
    evaluateIntsAt x (mulInts a b) = evaluateIntsAt x a * evaluateIntsAt x b := by
  induction a with
  | nil => rw [mulInts, evaluateIntsAt_map_zero, evaluateIntsAt, zero_mul]
  | cons v a ih =>
    have scaled : (b.map (v * ·)).length = n := by rw [List.length_map, length]
    have product := length_mulInts hn length a
    rw [mulInts, evaluateIntsAt_add (scaled.trans (length_shiftInts hn product).symm),
      evaluateIntsAt_map_mul, evaluateIntsAt_shift hn hx product, ih, evaluateIntsAt]
    ring

end Values

/-! ## Images -/

theorem image_addInts (B : Basis) (length : a.length = b.length) :
    B.image (addInts a b) = B.image a + B.image b :=
  funext fun _ => evaluateIntsAt_add length

theorem image_mulInts {B : Basis} (hn : B.degree ≠ 0) (length : b.length = B.degree)
    (a : List Int) : B.image (mulInts a b) = B.image a * B.image b :=
  funext fun _ => evaluateIntsAt_mul hn (root_pow _ _) length a

/-! ## Ternary polynomials -/

/-- Coefficients `-1`, `0` and `1`, a given number of them nonzero. -/
structure IsTernary (n weight : Nat) (c : List Int) : Prop where
  length : c.length = n
  value : ∀ v ∈ c, v = -1 ∨ v = 0 ∨ v = 1
  weight : c.countP (· ≠ 0) = weight

theorem IsTernary.zero_cons (h : IsTernary n k c) : IsTernary (n + 1) k (0 :: c) where
  length := congrArg (· + 1) h.length
  value := List.forall_mem_cons.mpr ⟨.inr (.inl rfl), h.value⟩
  weight := by
    rw [List.countP_cons, h.weight]
    rfl

theorem IsTernary.unit_cons (h : IsTernary n k c) {v : Int} (hv : v = 1 ∨ v = -1) :
    IsTernary (n + 1) (k + 1) (v :: c) where
  length := congrArg (· + 1) h.length
  value := by
    refine List.forall_mem_cons.mpr ⟨?_, h.value⟩
    rcases hv with rfl | rfl
    · exact .inr (.inr rfl)
    · exact .inl rfl
  weight := by
    rw [List.countP_cons, h.weight]
    rcases hv with rfl | rfl <;> rfl

theorem IsTernary.sumAbs_eq (h : IsTernary n k c) : sumAbs c = k := by
  rw [← h.weight]
  have value := h.value
  clear h
  induction c with
  | nil => rfl
  | cons v c ih =>
    have rest := ih fun w hw => value w (List.mem_cons_of_mem _ hw)
    rw [sumAbs, List.map_cons, List.sum_cons, ← sumAbs, rest, List.countP_cons]
    rcases value v List.mem_cons_self with rfl | rfl | rfl <;> simp [Nat.add_comm]

end CipherFlow.Ring
