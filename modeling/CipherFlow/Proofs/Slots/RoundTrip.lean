import CipherFlow.Proofs.Slots.Complex
import CipherFlow.Proofs.Slots.Positions

/-!
# The canonical embedding in exact arithmetic

With real numbers for floating-point ones, and without rounding, slots are
encoded and read back as they were, followed by zeros. A spectrum takes its
conjugate at opposite positions, so the coefficients are real. Their value at the
position of a slot is a sum over all positions; only the odd ones carry anything,
and over the coefficients the powers of two odd positions are orthogonal.

`embeds_two_pow` states it for every power of two from four on.

How the proof goes. Encoder and decoder are first written over any numbers
(`coefficients`, `evaluations`), of which the programs are the floating-point
instances (`encode_eq`, `decode_eq`). Over the complex numbers both are sums
(`CipherFlow.Proofs.Slots.Transforms`). The sums are exchanged, and by `sum_pow`
only the position that is asked for is left (`IsSpectrum.valueAt_coefficients`).
Half of the coefficients are enough, as the root to half of its order is `-1`.
-/

namespace CipherFlow.Slots.Embedding

open CipherFlow.Fourier (exactRoot exactRoot_mul_conj isRoot_exactRoot isRoot_conj IsRoot valueAt
  sums)

/-! ## The encoder over any numbers -/

section Numbers

variable {ρ : Type} [Add ρ] [Sub ρ] [Mul ρ] [Neg ρ] [Div ρ] [OfNat ρ 0]

/-- The coefficients of scaled slots before they are rounded, given the transform
and what its results are multiplied by. -/
def coefficients (forward : List (Slot ρ) → List (Slot ρ)) (norm : ρ) (degree : Nat)
    (slots : List (Slot ρ)) (scale : ρ) : List ρ :=
  ((forward (spectrum ⟨0, 0⟩ Slot.conj degree (slots.map (·.scaleBy scale)))).take degree).map
    fun z => z.re * norm

/-- The values of coefficients at the positions of slots, divided by the scale,
given the transform. -/
def evaluations (inverse : List (Slot ρ) → List (Slot ρ)) (degree : Nat) (coeffs : List ρ)
    (scale : ρ) : List (Slot ρ) :=
  (positions degree).map fun g =>
    ((inverse (coeffs.map (⟨·, 0⟩) ++ List.replicate degree ⟨0, 0⟩)).toArray.getD g
      ⟨0, 0⟩).divideBy scale

end Numbers

/-- Encoding rounds the coefficients that floating-point numbers give. -/
theorem encode_eq (e : Embedding) (slots : List (Slot Float)) (scale : Float) :
    e.encode slots scale = (do
      if e.slotCount < slots.length then throw (.inputTooLong slots.length e.slotCount)
      if !Binary64.isPositive scale then throw (.scale scale)
      slots.forM checkSlot
      (coefficients (fun xs => (e.transforms.forward xs).1) (1 / Float.ofNat e.degree)
        e.degree slots
        scale).mapM roundCoefficient) := by
  simp only [coefficients, List.mapM_map]
  rfl

theorem decode_eq (e : Embedding) (coeffs : List Float) (scale : Float) :
    e.decode coeffs scale =
      if coeffs.length ≠ e.degree then .error (.coefficientCount e.degree coeffs.length)
      else .ok (evaluations (fun xs => (e.transforms.inverse xs).1) e.degree coeffs scale) :=
  rfl

/-! ## Spectra of complex numbers -/

variable {k i g m t : Nat} {values all : List (Slot ℝ)}

/-- Nothing stands at even positions. -/
theorem IsSpectrum.getD_even (h : IsSpectrum 0 Slot.conj (2 ^ k) values all) (two_le : 2 ≤ k)
    (lt : i < 2 * 2 ^ k) (even : i % 2 = 0) : all.getD i 0 = 0 := by
  have four := four_dvd_size two_le
  have zero := h.zero i lt fun j _ => by
    have := pow_five_spec two_le j
    omega
  rw [List.getD_eq_getElem?_getD, zero, Option.getD_some]

theorem opposite_opposite {n : Nat} (lt : m < n) : (n - (n - m) % n) % n = m := by
  rcases Nat.eq_zero_or_pos m with rfl | pos
  · rw [Nat.sub_zero, Nat.mod_self, Nat.sub_zero, Nat.mod_self]
  · rw [Nat.mod_eq_of_lt (show n - m < n by omega), Nat.sub_sub_self lt.le, Nat.mod_eq_of_lt lt]

/-- Opposite positions carry conjugate values; zero is opposite to itself. -/
theorem IsSpectrum.getD_opposite (h : IsSpectrum 0 Slot.conj (2 ^ k) values all) (two_le : 2 ≤ k)
    (lt : i < 2 * 2 ^ k) :
    all.getD ((2 * 2 ^ k - i) % (2 * 2 ^ k)) 0 = (all.getD i 0).conj := by
  have four := four_dvd_size two_le
  simp only [List.getD_eq_getElem?_getD]
  by_cases used : ∃ j < values.length,
      i = 5 ^ j % (2 * 2 ^ k) ∨ i = 2 * 2 ^ k - 5 ^ j % (2 * 2 ^ k)
  · obtain ⟨j, hj, at_or⟩ := used
    have place := pow_five_spec two_le j
    have value := h.value j _ (List.getElem?_eq_getElem hj)
    have conjugate := h.conjugate j _ (List.getElem?_eq_getElem hj)
    rw [Nat.mod_eq_of_lt (by omega)]
    rcases at_or with rfl | rfl
    · rw [conjugate, value, Option.getD_some, Option.getD_some]
    · rw [Nat.sub_sub_self place.1.le, value, conjugate, Option.getD_some, Option.getD_some,
        Slot.conj_conj]
  · have unused : ∀ j < values.length,
        i ≠ 5 ^ j % (2 * 2 ^ k) ∧ i ≠ 2 * 2 ^ k - 5 ^ j % (2 * 2 ^ k) :=
      fun j hj => not_or.mp fun eq => used ⟨j, hj, eq⟩
    have opposite : all[(2 * 2 ^ k - i) % (2 * 2 ^ k)]? = some 0 := by
      refine h.zero _ (Nat.mod_lt _ (by positivity)) fun j hj => ?_
      have := pow_five_spec two_le j
      have := unused j hj
      rcases Nat.eq_zero_or_pos i with rfl | pos
      · rw [Nat.sub_zero, Nat.mod_self]
        omega
      · rw [Nat.mod_eq_of_lt (by omega)]
        omega
    rw [h.zero i lt unused, opposite]
    exact (map_zero Slot.conjugation).symm

/-! ## Roots of unity -/

theorem root_whole (k : Nat) : exactRoot (2 * 2 ^ k) (2 * 2 ^ k) = 1 := by
  rw [← Nat.pow_succ']
  exact isRoot_exactRoot.whole (k + 1)

theorem conj_eq_of_mul_eq_one {n a b : Nat} (h : exactRoot n a * exactRoot n b = 1) :
    (exactRoot n b).conj = exactRoot n a := by
  rw [← one_mul (exactRoot n b).conj, ← h, mul_assoc, exactRoot_mul_conj, mul_one]

theorem conj_root_opposite (lt : m < 2 * 2 ^ k) (t : Nat) :
    (exactRoot (2 * 2 ^ k) ((2 * 2 ^ k - m) % (2 * 2 ^ k) * t)).conj =
      exactRoot (2 * 2 ^ k) (m * t) := by
  refine conj_eq_of_mul_eq_one ?_
  rw [← isRoot_exactRoot.add, ← Nat.add_mul, Nat.mul_comm _ t, isRoot_exactRoot.mul]
  rcases Nat.eq_zero_or_pos m with rfl | pos
  · rw [Nat.sub_zero, Nat.mod_self, isRoot_exactRoot.zero, one_pow]
  · rw [Nat.mod_eq_of_lt (by omega), Nat.add_sub_of_le lt.le, root_whole, one_pow]

/-- Odd powers of a root are opposite to 1 after half of the order. -/
theorem odd_pow {root : Nat → Nat → Slot ℝ} (h : IsRoot root) (odd : g % 2 = 1) :
    root (2 * 2 ^ k) g ^ 2 ^ k = -1 := by
  rw [← h.mul, Nat.mul_comm (2 ^ k) g, h.mul, ← Nat.pow_succ', h.half]
  exact Odd.neg_one_pow (Nat.odd_iff.mpr odd)

/-- The powers of two odd positions are orthogonal over the coefficients. -/
theorem sum_pow (hg : g < 2 * 2 ^ k) (hm : m < 2 * 2 ^ k) (oddg : g % 2 = 1) (oddm : m % 2 = 1) :
    ∑ t ∈ Finset.range (2 ^ k), (exactRoot (2 * 2 ^ k) g * (exactRoot (2 * 2 ^ k) m).conj) ^ t =
      if m = g then ((2 ^ k : Nat) : Slot ℝ) else 0 := by
  split
  · rename_i same
    rw [same, exactRoot_mul_conj]
    simp only [one_pow, Finset.sum_const, Finset.card_range, nsmul_eq_mul, mul_one]
  · rename_i ne
    have one : (exactRoot (2 * 2 ^ k) g * (exactRoot (2 * 2 ^ k) m).conj) ^ 2 ^ k = 1 := by
      rw [mul_pow, odd_pow isRoot_exactRoot oddg, odd_pow isRoot_conj oddm, neg_mul_neg, one_mul]
    have product := geom_sum_mul (exactRoot (2 * 2 ^ k) g * (exactRoot (2 * 2 ^ k) m).conj) (2 ^ k)
    rw [one, sub_self] at product
    refine (mul_eq_zero.mp product).resolve_right fun zero => ne ?_
    have same := congrArg (· * exactRoot (2 * 2 ^ k) m) (sub_eq_zero.mp zero)
    simp only [mul_assoc, one_mul] at same
    rw [mul_comm (exactRoot (2 * 2 ^ k) m).conj, exactRoot_mul_conj, mul_one] at same
    exact (Fourier.exactRoot_injective hg hm same).symm

/-! ## Coefficients -/

/-- The transform of a spectrum is its own conjugate. -/
theorem IsSpectrum.conj_valueAt (h : IsSpectrum 0 Slot.conj (2 ^ k) values all)
    (two_le : 2 ≤ k) (t : Nat) :
    (valueAt (fun j => (exactRoot (2 * 2 ^ k) j).conj) all t).conj =
      valueAt (fun j => (exactRoot (2 * 2 ^ k) j).conj) all t := by
  have pos : 0 < 2 * 2 ^ k := by positivity
  have back : ∀ m ∈ Finset.range (2 * 2 ^ k),
      (2 * 2 ^ k - (2 * 2 ^ k - m) % (2 * 2 ^ k)) % (2 * 2 ^ k) = m :=
    fun m hm => opposite_opposite (Finset.mem_range.mp hm)
  have inside : ∀ m ∈ Finset.range (2 * 2 ^ k),
      (2 * 2 ^ k - m) % (2 * 2 ^ k) ∈ Finset.range (2 * 2 ^ k) :=
    fun m _ => Finset.mem_range.mpr (Nat.mod_lt _ pos)
  show Slot.conjugation _ = _
  rw [valueAt, h.length, map_sum]
  refine Finset.sum_nbij' (fun m => (2 * 2 ^ k - m) % (2 * 2 ^ k))
    (fun m => (2 * 2 ^ k - m) % (2 * 2 ^ k)) inside inside back back fun m hm => ?_
  have lt := Finset.mem_range.mp hm
  rw [map_mul, h.getD_opposite two_le lt, conj_root_opposite lt]
  exact congrArg (_ * ·) (Slot.conj_conj _)

theorem IsSpectrum.im_valueAt (h : IsSpectrum 0 Slot.conj (2 ^ k) values all) (two_le : 2 ≤ k)
    (t : Nat) : (valueAt (fun j => (exactRoot (2 * 2 ^ k) j).conj) all t).im = 0 :=
  Slot.im_eq_zero_of_conj (h.conj_valueAt two_le t)

theorem valueAt_map_range {α : Type} [CommRing α] (root f : Nat → α) (n p : Nat) :
    valueAt root ((List.range n).map f) p = ∑ t ∈ Finset.range n, f t * root (t * p) := by
  rw [valueAt, List.length_map, List.length_range]
  refine Finset.sum_congr rfl fun t ht => ?_
  rw [List.getD_eq_getElem?_getD, List.getElem?_map, List.getElem?_range (Finset.mem_range.mp ht)]
  rfl

theorem inverse_mul_degree (k : Nat) :
    (⟨1 / (2 ^ k : Nat), 0⟩ : Slot ℝ) * ((2 ^ k : Nat) : Slot ℝ) = 1 := by
  have nonzero : ((2 ^ k : Nat) : ℝ) ≠ 0 := Nat.cast_ne_zero.mpr (Nat.two_pow_pos k).ne'
  apply Slot.ext
  · simp only [Slot.mul_re, Slot.natCast_re, Slot.natCast_im, Slot.one_re]
    rw [one_div, inv_mul_cancel₀ nonzero, mul_zero, sub_zero]
  · simp only [Slot.mul_im, Slot.natCast_re, Slot.natCast_im, Slot.one_im, mul_zero, zero_mul,
      add_zero]

/-- There and back a position contributes a power of what its root and the other
one give together. -/
theorem conj_root_mul_root (k t g m : Nat) :
    (exactRoot (2 * 2 ^ k) (m * t)).conj * exactRoot (2 * 2 ^ k) (t * g) =
      (exactRoot (2 * 2 ^ k) g * (exactRoot (2 * 2 ^ k) m).conj) ^ t := by
  rw [mul_pow, ← isRoot_exactRoot.mul, ← isRoot_conj.mul, Nat.mul_comm m t, mul_comm]

/-- At odd positions the coefficients of a spectrum have its values. -/
theorem IsSpectrum.valueAt_coefficients (h : IsSpectrum 0 Slot.conj (2 ^ k) values all)
    (two_le : 2 ≤ k) (lt : g < 2 * 2 ^ k) (odd : g % 2 = 1) :
    valueAt (exactRoot (2 * 2 ^ k)) ((List.range (2 ^ k)).map fun t =>
      valueAt (fun j => (exactRoot (2 * 2 ^ k) j).conj) all t * ⟨1 / (2 ^ k : Nat), 0⟩) g =
        all.getD g 0 := by
  let norm : Slot ℝ := ⟨1 / (2 ^ k : Nat), 0⟩
  have term (t m : Nat) : all.getD m 0 * (exactRoot (2 * 2 ^ k) (m * t)).conj * norm *
      exactRoot (2 * 2 ^ k) (t * g) = all.getD m 0 * norm *
        (exactRoot (2 * 2 ^ k) g * (exactRoot (2 * 2 ^ k) m).conj) ^ t := by
    rw [← conj_root_mul_root]
    ring
  calc
    _ = ∑ t ∈ Finset.range (2 ^ k), valueAt (fun j => (exactRoot (2 * 2 ^ k) j).conj) all t * norm *
        exactRoot (2 * 2 ^ k) (t * g) := valueAt_map_range _ _ _ _
    _ = ∑ t ∈ Finset.range (2 ^ k), ∑ m ∈ Finset.range (2 * 2 ^ k), all.getD m 0 * norm *
        (exactRoot (2 * 2 ^ k) g * (exactRoot (2 * 2 ^ k) m).conj) ^ t := by
      refine Finset.sum_congr rfl fun t _ => ?_
      rw [valueAt, h.length, Finset.sum_mul, Finset.sum_mul]
      exact Finset.sum_congr rfl fun m _ => term t m
    _ = ∑ m ∈ Finset.range (2 * 2 ^ k), all.getD m 0 * norm * ∑ t ∈ Finset.range (2 ^ k),
        (exactRoot (2 * 2 ^ k) g * (exactRoot (2 * 2 ^ k) m).conj) ^ t := by
      rw [Finset.sum_comm]
      simp only [Finset.mul_sum]
    _ = all.getD g 0 * norm * ((2 ^ k : Nat) : Slot ℝ) := by
      rw [Finset.sum_eq_single g]
      · rw [sum_pow lt lt odd odd, if_pos rfl]
      · intro m hm ne
        have hm := Finset.mem_range.mp hm
        rcases Nat.mod_two_eq_zero_or_one m with even | oddm
        · rw [h.getD_even two_le hm even, zero_mul, zero_mul]
        · rw [sum_pow lt hm odd oddm, if_neg ne, mul_zero]
      · exact fun out => absurd (Finset.mem_range.mpr lt) out
    _ = all.getD g 0 := by rw [mul_assoc, inverse_mul_degree, mul_one]

/-- At the position of a slot stands its value, or zero if none is given. -/
theorem IsSpectrum.getD_position (h : IsSpectrum 0 Slot.conj (2 ^ k) values all)
    (two_le : 2 ≤ k) (few : values.length ≤ 2 ^ k / 2) {j : Nat} (hj : j < 2 ^ k / 2) :
    all.getD (5 ^ j % (2 * 2 ^ k)) 0 = values.getD j 0 := by
  simp only [List.getD_eq_getElem?_getD]
  by_cases given : j < values.length
  · rw [h.value j _ (List.getElem?_eq_getElem given), List.getElem?_eq_getElem given]
  · have four := four_dvd_size two_le
    have place := pow_five_spec two_le j
    have zero := h.zero _ place.1 fun i hi => by
      have other := pow_five_spec two_le i
      refine ⟨fun eq => ?_, by omega⟩
      have same := position_injective two_le hj (Nat.lt_of_lt_of_le hi few) eq
      omega
    rw [zero, List.getElem?_eq_none (Nat.le_of_not_lt given)]
    rfl

/-! ## The round trip -/

/-- The transform of a spectrum, by its defining sums. -/
noncomputable def exactForward (degree : Nat) : List (Slot ℝ) → List (Slot ℝ) :=
  sums (fun j => (exactRoot (2 * degree) j).conj) (2 * degree)

/-- The inverse transform, not normalised, by its defining sums. -/
noncomputable def exactInverse (degree : Nat) : List (Slot ℝ) → List (Slot ℝ) :=
  sums (exactRoot (2 * degree)) (2 * degree)

theorem take_exactForward (degree : Nat) (all : List (Slot ℝ)) :
    (exactForward degree all).take degree =
      (List.range degree).map (valueAt (fun j => (exactRoot (2 * degree) j).conj) all) := by
  have least : min degree (2 * degree) = degree := by omega
  rw [exactForward, sums, ← List.map_take, List.take_range, least]

theorem getD_sums (root : Nat → Slot ℝ) {size : Nat} (xs : List (Slot ℝ)) (lt : g < size)
    (d : Slot ℝ) : (sums root size xs).toArray.getD g d = valueAt root xs g := by
  simp [sums, lt]

/-- Zeros behind the coefficients of a polynomial do not count. -/
theorem valueAt_append_zeros (root : Nat → Slot ℝ) (xs : List (Slot ℝ)) (count p : Nat) :
    valueAt root (xs ++ List.replicate count ⟨0, 0⟩) p = valueAt root xs p := by
  change valueAt root (xs ++ List.replicate count 0) p = _
  rw [valueAt, valueAt, List.length_append, List.length_replicate, Finset.sum_range_add]
  have zeros : ∑ i ∈ Finset.range count,
      (xs ++ List.replicate count 0).getD (xs.length + i) 0 * root ((xs.length + i) * p) = 0 := by
    refine Finset.sum_eq_zero fun i hi => ?_
    simp [List.getD_eq_getElem?_getD, Finset.mem_range.mp hi]
  rw [zeros, add_zero]
  refine Finset.sum_congr rfl fun i hi => ?_
  rw [List.getD_eq_getElem?_getD, List.getElem?_append_left (Finset.mem_range.mp hi),
    List.getD_eq_getElem?_getD]

theorem map_getD_range {α : Type} (xs : List α) (d : α) {size : Nat} (le : xs.length ≤ size) :
    (List.range size).map (xs.getD · d) = xs ++ List.replicate (size - xs.length) d := by
  refine List.ext_getElem? fun i => ?_
  rw [List.getElem?_map, List.getElem?_append, List.getElem?_replicate]
  by_cases given : i < xs.length
  · rw [List.getElem?_range (Nat.lt_of_lt_of_le given le), if_pos given, Option.map_some,
      List.getD_eq_getElem?_getD, List.getElem?_eq_getElem given, Option.getD_some]
  · rw [if_neg given]
    split
    · rw [List.getElem?_range (by omega), Option.map_some, List.getD_eq_getElem?_getD,
        List.getElem?_eq_none (Nat.le_of_not_lt given), Option.getD_none]
    · rw [List.getElem?_eq_none (by rw [List.length_range]; omega), Option.map_none]

variable {slots : List (Slot ℝ)} {scale : ℝ}

theorem isSpectrum_scaled (two_le : 2 ≤ k) (few : slots.length ≤ 2 ^ k / 2) (scale : ℝ) :
    IsSpectrum 0 Slot.conj (2 ^ k) (slots.map (·.scaleBy scale))
      (spectrum 0 Slot.conj (2 ^ k) (slots.map (·.scaleBy scale))) :=
  isSpectrum_spectrum two_le 0 Slot.conj (by rwa [List.length_map])

/-- The coefficients are the transform of the spectrum, divided by the degree. -/
theorem map_coefficients (two_le : 2 ≤ k) (few : slots.length ≤ 2 ^ k / 2) (scale : ℝ) :
    (coefficients (exactForward (2 ^ k)) (1 / (2 ^ k : Nat)) (2 ^ k) slots scale).map
        (fun c => (⟨c, 0⟩ : Slot ℝ)) =
      (List.range (2 ^ k)).map fun t =>
        valueAt (fun j => (exactRoot (2 * 2 ^ k) j).conj)
          (spectrum 0 Slot.conj (2 ^ k) (slots.map (·.scaleBy scale))) t *
            ⟨1 / (2 ^ k : Nat), 0⟩ := by
  rw [coefficients, take_exactForward, List.map_map, List.map_map]
  refine List.map_congr_left fun t _ => ?_
  have real := (isSpectrum_scaled two_le few scale).im_valueAt two_le t
  apply Slot.ext
  · rw [Slot.mul_re, mul_zero, sub_zero]
    rfl
  · rw [Slot.mul_im, real, mul_zero, zero_mul, add_zero]
    rfl

theorem divideBy_scaleBy (pos : 0 < scale) (z : Slot ℝ) : (z.scaleBy scale).divideBy scale = z := by
  apply Slot.ext
  · exact mul_div_cancel_right₀ _ pos.ne'
  · exact mul_div_cancel_right₀ _ pos.ne'

theorem evaluations_coefficients (two_le : 2 ≤ k) (few : slots.length ≤ 2 ^ k / 2)
    (pos : 0 < scale) :
    evaluations (exactInverse (2 ^ k)) (2 ^ k)
        (coefficients (exactForward (2 ^ k)) (1 / (2 ^ k : Nat)) (2 ^ k) slots scale) scale =
      slots ++ List.replicate (2 ^ k / 2 - slots.length) 0 := by
  have spectrum := isSpectrum_scaled two_le few scale
  rw [← map_getD_range slots 0 few, evaluations, map_coefficients two_le few,
    positions_eq (Nat.two_pow_pos k), List.map_map]
  refine List.map_congr_left fun j hj => ?_
  have hj := List.mem_range.mp hj
  obtain ⟨lt, residue⟩ := pow_five_spec two_le j
  have odd : 5 ^ j % (2 * 2 ^ k) % 2 = 1 := by omega
  have scaled : (slots.map (·.scaleBy scale)).getD j 0 = (slots.getD j 0).scaleBy scale := by
    rw [List.getD_eq_getElem?_getD, List.getElem?_map, List.getD_eq_getElem?_getD]
    cases slots[j]? with
    | none => exact (Slot.ext (zero_mul _) (zero_mul _)).symm
    | some z => rfl
  rw [Function.comp_apply, exactInverse, getD_sums _ _ lt, valueAt_append_zeros,
    spectrum.valueAt_coefficients two_le lt odd,
    spectrum.getD_position two_le (by rwa [List.length_map]) hj, scaled, divideBy_scaleBy pos]

/-- What encoder and decoder of a degree are in exact arithmetic. With any transforms
they are the same program over floating-point numbers, with the coefficients
rounded; the transforms by halving give the defining sums. -/
structure Embeds (degree : Nat) : Prop where
  positions : positions degree = (List.range (degree / 2)).map fun j => 5 ^ j % (2 * degree)
  distinct : (Embedding.positions degree ++ (Embedding.positions degree).map (2 * degree - ·)).Nodup
  odd : ∀ i, i ∈ Embedding.positions degree ++ (Embedding.positions degree).map (2 * degree - ·) ↔
    i < 2 * degree ∧ i % 2 = 1
  kept : ∀ {α : Type} (zero : α) (conj : α → α) (values : List α), values.length ≤ degree / 2 →
    IsSpectrum zero conj degree values (spectrum zero conj degree values)
  encode : ∀ (t : Fourier.Transforms) (slots : List (Slot Float)) (scale : Float),
    Embedding.encode ⟨degree, t⟩ slots scale = (do
      if degree / 2 < slots.length then throw (.inputTooLong slots.length (degree / 2))
      if !Binary64.isPositive scale then throw (.scale scale)
      slots.forM checkSlot
      (coefficients (fun xs => (t.forward xs).1) (1 / Float.ofNat degree) degree slots
        scale).mapM roundCoefficient)
  decode : ∀ (t : Fourier.Transforms) (coeffs : List Float) (scale : Float),
    Embedding.decode ⟨degree, t⟩ coeffs scale =
      if coeffs.length ≠ degree then .error (.coefficientCount degree coeffs.length)
      else .ok (evaluations (fun xs => (t.inverse xs).1) degree coeffs scale)
  forward : ∀ xs : List (Slot ℝ), xs.length = 2 * degree →
    Fourier.transform (fun n j => (exactRoot n j).conj) (degree.log2 + 1) xs =
      exactForward degree xs
  inverse : ∀ xs : List (Slot ℝ), xs.length = 2 * degree →
    Fourier.transformHalves exactRoot degree.log2 xs = exactInverse degree xs
  real : ∀ (slots : List (Slot ℝ)) (scale : ℝ), slots.length ≤ degree / 2 → 0 < scale →
    ∀ z ∈ (exactForward degree
      (spectrum ⟨0, 0⟩ Slot.conj degree (slots.map (·.scaleBy scale)))).take degree, z.im = 0
  length : ∀ (slots : List (Slot ℝ)) (scale : ℝ),
    (coefficients (exactForward degree) (1 / degree) degree slots scale).length = degree
  returned : ∀ (slots : List (Slot ℝ)) (scale : ℝ), slots.length ≤ degree / 2 → 0 < scale →
    evaluations (exactInverse degree) degree
        (coefficients (exactForward degree) (1 / degree) degree slots scale) scale =
      slots ++ List.replicate (degree / 2 - slots.length) ⟨0, 0⟩

/-- A degree that is a power of two from four on has slots at all odd powers of the
root, and exact arithmetic returns what is put there. -/
theorem embeds_two_pow (two_le : 2 ≤ k) : Embeds (2 ^ k) where
  positions := positions_eq (Nat.two_pow_pos k)
  distinct := nodup_places two_le
  odd := fun _ => mem_places_iff two_le
  kept := fun zero conj _ few => isSpectrum_spectrum two_le zero conj few
  encode := fun t => encode_eq ⟨2 ^ k, t⟩
  decode := fun t => decode_eq ⟨2 ^ k, t⟩
  forward := by
    intro xs length
    rw [← Nat.pow_succ'] at length
    rw [Nat.log2_two_pow, isRoot_conj.transform_eq length, exactForward, ← Nat.pow_succ']
  inverse := by
    intro xs length
    rw [← Nat.pow_succ'] at length
    rw [Nat.log2_two_pow, isRoot_exactRoot.transformHalves_eq length, exactInverse, ← Nat.pow_succ']
  real := by
    intro slots scale few _ z hz
    rw [take_exactForward] at hz
    obtain ⟨t, -, rfl⟩ := List.mem_map.mp hz
    exact (isSpectrum_scaled two_le few scale).im_valueAt two_le t
  length := by
    intro slots scale
    rw [coefficients, take_exactForward, List.length_map, List.length_map, List.length_range]
  returned := fun _ _ few pos => evaluations_coefficients two_le few pos

/-- The smallest degree has two slots, at the powers 1 and 5, and their conjugates at
7 and 3. -/
theorem embeds_two_pow_four :
    2 ≤ 2 ∧ positions 4 = [1, 5] ∧ (∀ i, i ∈ [1, 5, 7, 3] ↔ i < 8 ∧ i % 2 = 1) ∧
      evaluations (exactInverse 4) 4
        (coefficients (exactForward 4) (1 / (4 : Nat)) 4 [⟨3, 1⟩] 2) 2 = [⟨3, 1⟩, ⟨0, 0⟩] := by
  have embeds : Embeds 4 := embeds_two_pow (k := 2) (le_refl 2)
  exact ⟨le_refl 2, rfl, embeds.odd, embeds.returned [⟨3, 1⟩] 2 (by decide) two_pos⟩

end CipherFlow.Slots.Embedding
