import CipherFlow.Proofs.Number.Forms

/-!
# Whole numbers in floating point

Integers of at most fifty-three bits are numbers, and a sum or product of two
of them is exact if it has at most that many bits. So as long as integers stay
small, arithmetic on numbers is arithmetic on integers.

Main lemmas: `ofInt_add`, `ofInt_mul_ofNat` and `ofNat_mul_ofNat`. The form of a
whole number has its digits moved to the top of the fifty-three places
(`wholeForm`); a sum or product of forms is again such a form before it is rounded,
and rounding leaves it alone (`round_whole`).
-/

namespace CipherFlow

open Float.Model (UnpackedFloat)
open Float.Model.UnpackedFloat (Sign)

/-! ## Forms of whole numbers

A number has many representations as an integer times a power of two, of which one
is normal. It is that one which rounding gives, so forms are given as normal ones
from the start. -/

/-- The binary places that a natural number leaves free in fifty-three. -/
def freePlaces (n : Nat) : Nat :=
  52 - n.log2

variable {n : Nat} {s : Sign}

/-- A power of two adds its exponent to the logarithm. -/
theorem log2_mul_two_pow (pos : 0 < n) (k : Nat) : (n * 2 ^ k).log2 = n.log2 + k := by
  induction k with
  | zero => rw [Nat.pow_zero, Nat.mul_one, Nat.add_zero]
  | succ k ih =>
    have nonzero : n * 2 ^ k ≠ 0 := (Nat.mul_pos pos (Nat.two_pow_pos k)).ne'
    rw [Nat.pow_succ', Nat.mul_left_comm, Nat.log2_two_mul nonzero, ih, Nat.add_assoc]

/-- Moved to the top of the fifty-three places. -/
theorem isNormal_whole (pos : 0 < n) (lt : n < 2 ^ 53) :
    IsNormal (n * 2 ^ freePlaces n) (-freePlaces n) := by
  have log : n.log2 < 53 := (Nat.log2_lt (by omega)).mpr lt
  obtain ⟨lower, upper⟩ := (Nat.log2_eq_iff (by omega)).mp (rfl : n.log2 = n.log2)
  have places : n.log2 + freePlaces n = 52 := by
    rw [freePlaces]
    omega
  have unit : 0 < 2 ^ freePlaces n := Nat.two_pow_pos _
  refine ⟨?_, ?_, by omega, by omega⟩
  · rw [← places, Nat.pow_add]
    exact Nat.mul_le_mul_right _ lower
  · have top : 53 = n.log2 + 1 + freePlaces n := by omega
    rw [top, Nat.pow_add]
    exact Nat.mul_lt_mul_of_pos_right upper unit

/-- The form of a whole number of either sign. -/
def wholeForm (s : Sign) (n : Nat) (pos : 0 < n) : UnpackedFloat :=
  .finite s (n * 2 ^ freePlaces n) (-freePlaces n) (Nat.mul_pos pos (Nat.two_pow_pos _))

/-- A whole number with zeros after it is rounded to itself. -/
theorem roundWithAccuracy_whole (pos : 0 < n) (lt : n < 2 ^ 53) {j : Nat}
    (le : freePlaces n ≤ j) :
    UnpackedFloat.roundWithAccuracy .binary64 s (n * 2 ^ j) (-j) .exact = wholeForm s n pos := by
  have normal := isNormal_whole pos lt
  -- There are `k` digits too many, and all of them are zeros.
  obtain ⟨k, rfl⟩ := Nat.exists_eq_add_of_le le
  have split : n * 2 ^ (freePlaces n + k) = n * 2 ^ freePlaces n * 2 ^ k := by
    rw [Nat.pow_add, Nat.mul_assoc]
  have log : (n * 2 ^ (freePlaces n + k)).log2 = 52 + k := by
    rw [split, log2_mul_two_pow (Nat.mul_pos pos (Nat.two_pow_pos _)), normal.log2]
  have exponent : -((freePlaces n + k : Nat) : Int) + k = -freePlaces n := by
    push_cast
    omega
  have rounded : roundedTo (n * 2 ^ (freePlaces n + k)) k = n * 2 ^ freePlaces n := by
    rw [split, roundedTo_exact]
  rw [roundWithAccuracy_normal log (by rw [exponent]; exact normal.low),
    if_neg (rounded ▸ normal.lt.ne)]
  simp only [rounded, exponent, wholeForm]

/-- Free places are made where there are too few. -/
theorem round_whole (pos : 0 < n) (lt : n < 2 ^ 53) (j : Nat) :
    UnpackedFloat.round .binary64 s (n * 2 ^ j) (-j) = wholeForm s n pos := by
  have log : n.log2 < 53 := (Nat.log2_lt (by omega)).mpr lt
  have target : Float.Model.Format.targetExponent .binary64
      (Float.Model.totalExponent (n * 2 ^ j) (-j)) = -freePlaces n := by
    rw [Float.Model.Format.targetExponent, Float.Model.totalExponent, log2_mul_two_pow pos,
      freePlaces]
    show max (((n.log2 + j : Nat) : Int) + 1 + -(j : Int) - 53) (-1074) =
      -((52 - n.log2 : Nat) : Int)
    omega
  have amount : (-(j : Int) - -(freePlaces n : Int)).toNat = freePlaces n - j := by omega
  rw [UnpackedFloat.round, target, UnpackedFloat.decreaseExponent, amount]
  show UnpackedFloat.roundWithAccuracy .binary64 s ((n * 2 ^ j) <<< (freePlaces n - j))
    (-(j : Int) - (freePlaces n - j : Nat)) .exact = wholeForm s n pos
  have exponent : -(j : Int) - (freePlaces n - j : Nat) = -(j + (freePlaces n - j) : Nat) := by
    omega
  -- After the shift there are zeros enough, and the rounding is the one above.
  rw [Nat.shiftLeft_eq, Nat.mul_assoc, ← Nat.pow_add, exponent]
  exact roundWithAccuracy_whole pos lt (by omega)

/-- The form of an integer. -/
def intForm (v : Int) : UnpackedFloat :=
  if h : v = 0 then .zero .positive
  else wholeForm (if v < 0 then .negative else .positive) v.natAbs (Int.natAbs_pos.mpr h)

variable {a b v : Int}

/-- An integer with zeros after it is normalised to its form, by its magnitude and its
sign. -/
theorem normalize_whole (lt : v.natAbs < 2 ^ 53) (j : Nat) :
    UnpackedFloat.normalize .binary64 (v * 2 ^ j) (-j) .positive = intForm v := by
  have unit : (0 : Int) < 2 ^ j := Int.pow_pos (by decide)
  rcases lt_trichotomy v 0 with neg | rfl | pos
  · have magnitude : (-(v * 2 ^ j)).toNat = v.natAbs * 2 ^ j := by
      have eq : -(v * 2 ^ j) = (v.natAbs * 2 ^ j : Nat) := by
        rw [Nat.cast_mul, Int.ofNat_natAbs_of_nonpos neg.le, Int.neg_mul]
        push_cast
        rfl
      rw [eq, Int.toNat_natCast]
    have below : compare (v * 2 ^ j) 0 = .lt :=
      Int.compare_eq_lt.mpr (Int.mul_neg_of_neg_of_pos neg unit)
    rw [UnpackedFloat.normalize, below, intForm, dif_neg neg.ne, if_pos neg]
    simp only [magnitude]
    exact round_whole _ lt j
  · rw [Int.zero_mul]
    rfl
  · have magnitude : (v * 2 ^ j).toNat = v.natAbs * 2 ^ j := by
      have eq : v * 2 ^ j = (v.natAbs * 2 ^ j : Nat) := by
        rw [Nat.cast_mul, Int.natAbs_of_nonneg pos.le]
        push_cast
        rfl
      rw [eq, Int.toNat_natCast]
    have above : compare (v * 2 ^ j) 0 = .gt := Int.compare_eq_gt.mpr (Int.mul_pos pos unit)
    rw [UnpackedFloat.normalize, above, intForm, dif_neg pos.ne', if_neg pos.not_gt]
    simp only [magnitude]
    exact round_whole _ lt j

/-- A sign and a magnitude make up an integer. -/
theorem apply_natAbs (v : Int) (k : Nat) :
    (if v < 0 then Sign.negative else .positive).apply (v.natAbs * k : Nat) = v * k := by
  split
  · rename_i neg
    show -((v.natAbs * k : Nat) : Int) = v * k
    rw [Nat.cast_mul, ← Int.neg_mul, Int.ofNat_natAbs_of_nonpos neg.le, Int.neg_neg]
  · rename_i nonneg
    show ((v.natAbs * k : Nat) : Int) = v * k
    rw [Nat.cast_mul, Int.natAbs_of_nonneg (not_lt.mp nonneg)]

/-! ## Arithmetic on forms

Both operations are defined on integers and exponents, and then round. It has to be
seen that the integers are those of the result, up to zeros at the end. -/

/-- A product with a positive integer is exact if it is small. -/
theorem mul_intForm (pos : 0 < b) (ha : a.natAbs < 2 ^ 53) (hb : b.natAbs < 2 ^ 53)
    (lt : (a * b).natAbs < 2 ^ 53) :
    UnpackedFloat.mul .binary64 (intForm a) (intForm b) = intForm (a * b) := by
  by_cases zero : a = 0
  · subst zero
    rw [Int.zero_mul, intForm, intForm, dif_pos rfl, dif_neg pos.ne', if_neg pos.not_gt]
    rfl
  have nonzero : a * b ≠ 0 := Int.mul_ne_zero zero pos.ne'
  have sign : a * b < 0 ↔ a < 0 :=
    ⟨fun h => neg_of_mul_neg_left h pos.le, fun h => Int.mul_neg_of_neg_of_pos h pos⟩
  have scaled : a.natAbs * 2 ^ freePlaces a.natAbs * (b.natAbs * 2 ^ freePlaces b.natAbs) =
      (a * b).natAbs * 2 ^ (freePlaces a.natAbs + freePlaces b.natAbs) := by
    rw [Int.natAbs_mul, Nat.pow_add]
    ring
  have exponent : -(freePlaces a.natAbs : Int) + -freePlaces b.natAbs =
      -(freePlaces a.natAbs + freePlaces b.natAbs : Nat) := by
    push_cast
    ring
  -- A product has at least the digits of both factors less one, so there are zeros enough.
  have places : freePlaces (a * b).natAbs ≤ freePlaces a.natAbs + freePlaces b.natAbs := by
    have digits : a.natAbs.log2 + b.natAbs.log2 ≤ (a * b).natAbs.log2 := by
      rw [Nat.le_log2 (Int.natAbs_ne_zero.mpr nonzero), Int.natAbs_mul, Nat.pow_add]
      exact Nat.mul_le_mul (Nat.log2_self_le (Int.natAbs_ne_zero.mpr zero))
        (Nat.log2_self_le (Int.natAbs_ne_zero.mpr pos.ne'))
    have la : a.natAbs.log2 < 53 := (Nat.log2_lt (Int.natAbs_ne_zero.mpr zero)).mpr ha
    have lb : b.natAbs.log2 < 53 := (Nat.log2_lt (Int.natAbs_ne_zero.mpr pos.ne')).mpr hb
    unfold freePlaces
    omega
  rw [intForm, intForm, dif_neg zero, dif_neg pos.ne', if_neg pos.not_gt, intForm, dif_neg nonzero]
  simp only [sign]
  rw [wholeForm, wholeForm, UnpackedFloat.mul]
  simp only [scaled, exponent]
  rw [roundWithAccuracy_whole (Int.natAbs_pos.mpr nonzero) lt places]
  split <;> rfl

/-- A sum is exact if it is small. -/
theorem add_intForm (ha : a.natAbs < 2 ^ 53) (hb : b.natAbs < 2 ^ 53)
    (lt : (a + b).natAbs < 2 ^ 53) :
    UnpackedFloat.add .binary64 (intForm a) (intForm b) = intForm (a + b) := by
  by_cases left : a = 0
  · subst left
    rw [Int.zero_add, intForm, dif_pos rfl, intForm]
    split <;> rfl
  by_cases right : b = 0
  · subst right
    rw [Int.add_zero, intForm, dif_neg left, intForm, dif_pos rfl]
    rfl
  -- Both are brought to the smaller exponent, at which their sum is one of integers.
  obtain ⟨k, hk⟩ : ∃ k : Nat, min (-(freePlaces a.natAbs : Int)) (-freePlaces b.natAbs) = -k :=
    ⟨max (freePlaces a.natAbs) (freePlaces b.natAbs), by omega⟩
  have ka : freePlaces a.natAbs + (-(freePlaces a.natAbs : Int) - -k).toNat = k := by omega
  have kb : freePlaces b.natAbs + (-(freePlaces b.natAbs : Int) - -k).toNat = k := by omega
  rw [intForm, intForm, dif_neg left, dif_neg right, wholeForm, wholeForm, UnpackedFloat.add]
  simp only [UnpackedFloat.decreaseExponent, hk, Nat.shiftLeft_eq, Nat.mul_assoc, ← Nat.pow_add,
    ka, kb, apply_natAbs]
  rw [← Int.add_mul]
  push_cast
  exact normalize_whole lt k

/-! ## Arithmetic on numbers

A number is unpacked, operated on and packed again. Forms that are normal survive
this. -/

variable {x y : Float}

theorem unpack_mul : (x * y).toModel.unpack =
    (Float.Model.pack (UnpackedFloat.mul .binary64 x.toModel.unpack y.toModel.unpack)).unpack :=
  rfl

theorem unpack_add : (x + y).toModel.unpack =
    (Float.Model.pack (UnpackedFloat.add .binary64 x.toModel.unpack y.toModel.unpack)).unpack :=
  rfl

theorem unpack_pack_intForm (lt : v.natAbs < 2 ^ 53) :
    (Float.Model.pack (intForm v)).unpack = intForm v := by
  rw [intForm]
  split
  · rfl
  · rename_i nonzero
    exact unpack_pack_normal (isNormal_whole (Int.natAbs_pos.mpr nonzero) lt) _

theorem neg_intForm (pos : 0 < n) : (intForm n).neg = intForm (-n) := by
  rw [intForm, intForm, dif_neg (by omega), dif_neg (by omega), if_neg (by omega),
    if_pos (by omega)]
  simp only [Int.natAbs_neg]
  rfl

/-- A small natural number is converted exactly. -/
theorem unpack_ofNat (lt : n < 2 ^ 53) : (Float.ofNat n).toModel.unpack = intForm n := by
  have small : (n : Int).natAbs < 2 ^ 53 := lt
  have word : n.toUInt64.toNat = n := by
    rw [Nat.toUInt64, UInt64.toNat_ofNat']
    exact Nat.mod_eq_of_lt (lt.trans (by decide))
  have converted : n.toUInt64.toFloat.toModel.unpack = intForm n := by
    have whole : UnpackedFloat.normalize .binary64 n 0 .positive = intForm n := by
      have scaled := normalize_whole small 0
      rwa [Int.pow_zero, Int.mul_one] at scaled
    have packed : n.toUInt64.toFloat.toModel = Float.Model.pack
        (UnpackedFloat.normalize .binary64 n.toUInt64.toNat 0 .positive) := rfl
    rw [packed, word, whole, unpack_pack_intForm small]
  -- A conversion multiplies by a power of ten, which here is 1.
  have one : (Float.ofBits 0x3ff0000000000000).toModel.unpack = intForm 1 := by rfl
  have fast : Float.ofNat n = n.toUInt64.toFloat * Float.ofBits 0x3ff0000000000000 :=
    dif_pos ⟨lt, by decide⟩
  rw [fast, unpack_mul, converted, one, mul_intForm Int.one_pos small (by decide)
    (by rwa [Int.mul_one]), Int.mul_one, unpack_pack_intForm small]

/-- A small integer is converted exactly. -/
theorem unpack_ofInt (lt : v.natAbs < 2 ^ 53) : (Float.ofInt v).toModel.unpack = intForm v := by
  cases v with
  | ofNat n => exact unpack_ofNat lt
  | negSucc n =>
    show (Float.Model.pack (Float.ofNat n.succ).toModel.unpack.neg).unpack = _
    rw [unpack_ofNat (n := n.succ) lt, neg_intForm n.succ_pos]
    exact unpack_pack_intForm lt

/-- Products of integers with positive integers are exact. -/
theorem ofInt_mul_ofNat (pos : 0 < n) (hn : n < 2 ^ 53) (lt : a.natAbs * n < 2 ^ 53) :
    Float.ofInt a * Float.ofNat n = Float.ofInt (a * n) := by
  have ha : a.natAbs < 2 ^ 53 := (Nat.le_mul_of_pos_right _ pos).trans_lt lt
  have product : (a * n).natAbs < 2 ^ 53 := by
    rwa [Int.natAbs_mul, Int.natAbs_natCast]
  refine eq_of_unpack ?_
  rw [unpack_mul, unpack_ofInt ha, unpack_ofNat hn,
    mul_intForm (Int.natCast_pos.mpr pos) ha hn product, unpack_pack_intForm product,
    unpack_ofInt product]

theorem ofInt_natCast (n : Nat) : Float.ofInt n = Float.ofNat n :=
  rfl

theorem ofNat_mul_ofNat {m : Nat} (pos : 0 < n) (hn : n < 2 ^ 53) (lt : m * n < 2 ^ 53) :
    Float.ofNat m * Float.ofNat n = Float.ofNat (m * n) := by
  rw [← ofInt_natCast, ofInt_mul_ofNat pos hn (by rwa [Int.natAbs_natCast]), ← Int.natCast_mul,
    ofInt_natCast]

/-- Sums of integers are exact. -/
theorem ofInt_add (ha : a.natAbs < 2 ^ 53) (hb : b.natAbs < 2 ^ 53)
    (lt : (a + b).natAbs < 2 ^ 53) : Float.ofInt a + Float.ofInt b = Float.ofInt (a + b) := by
  refine eq_of_unpack ?_
  rw [unpack_add, unpack_ofInt ha, unpack_ofInt hb, add_intForm ha hb lt, unpack_pack_intForm lt,
    unpack_ofInt lt]

/-! ## Terms that are zero

A digit 0 leaves a sum as it is, unless its weight is infinite: then the term is not a
number, and neither is the sum. -/

theorem unpack_ofInt_zero : (Float.ofInt 0).toModel.unpack = .zero .positive :=
  unpack_ofInt (by decide)

/-- A multiple of zero adds nothing if the factor is finite. -/
theorem ofInt_add_zero_mul {w : Float} (lt : v.natAbs < 2 ^ 53)
    (finite : Binary64.isFinite w = true) : Float.ofInt v + Float.ofInt 0 * w = Float.ofInt v := by
  have product : ∃ s, UnpackedFloat.mul .binary64 (.zero .positive) w.toModel.unpack = .zero s := by
    rcases Binary64.isFinite_iff.mp finite with ⟨s, hw⟩ | ⟨s, m, e, pos, hw⟩ <;>
      exact ⟨.positive * s, by rw [hw]; rfl⟩
  obtain ⟨s, hs⟩ := product
  refine eq_of_unpack ?_
  have sum : UnpackedFloat.add .binary64 (intForm v) (.zero s) = intForm v := by
    rw [intForm]
    split
    · cases s <;> rfl
    · rfl
  rw [unpack_add, unpack_mul, unpack_ofInt_zero, hs, unpack_pack_zero, unpack_ofInt lt, sum,
    unpack_pack_intForm lt]

/-- A multiple of zero is not a number if the factor is not finite. -/
theorem zero_mul_isNaN {w : Float} (infinite : ¬Binary64.isFinite w = true) :
    (Float.ofInt 0 * w).isNaN = true := by
  have product : UnpackedFloat.mul .binary64 (.zero .positive) w.toModel.unpack = .notANumber := by
    cases hw : w.toModel.unpack with
    | notANumber => rfl
    | infinity s => rfl
    | zero s => exact absurd (Binary64.isFinite_iff.mpr (.inl ⟨s, hw⟩)) infinite
    | finite s m e pos =>
      exact absurd (Binary64.isFinite_iff.mpr (.inr ⟨s, m, e, pos, hw⟩)) infinite
  refine UnpackedFloat.isNaN_iff.mpr ?_
  rw [unpack_mul, unpack_ofInt_zero, product]
  rfl

/-- Not-a-number stays in a sum. -/
theorem add_isNaN (h : x.isNaN = true ∨ y.isNaN = true) : (x + y).isNaN = true := by
  have sum : UnpackedFloat.add .binary64 x.toModel.unpack y.toModel.unpack = .notANumber := by
    rcases h with h | h
    · rw [UnpackedFloat.isNaN_iff.mp h]
      rfl
    · rw [UnpackedFloat.isNaN_iff.mp h]
      cases x.toModel.unpack <;> rfl
  refine UnpackedFloat.isNaN_iff.mpr ?_
  rw [unpack_add, sum]
  rfl

/-- An integer is a number. -/
theorem ofInt_isNaN (lt : v.natAbs < 2 ^ 53) : (Float.ofInt v).isNaN = false := by
  show (Float.ofInt v).toModel.unpack.isNaN = false
  rw [unpack_ofInt lt, intForm]
  split <;> rfl

end CipherFlow
