import CipherFlow.Proofs.Number.Nonnegative

/-!
# Numbers in either order

Sums and products of floating-point numbers do not depend on the order of the
operands, and neither does the distance of two numbers. So two scales match in
either order.
-/

namespace CipherFlow

open Float.Model (UnpackedFloat)
open Float.Model.UnpackedFloat (Sign)

variable {u v w : UnpackedFloat} {x y : Float}

/-! ## Sums and products

For forms of numbers, by cases on them; those of finite numbers are computed from
integers, whose sums and products commute. -/

theorem Sign.mul_comm (s t : Sign) : s * t = t * s := by
  cases s <;> cases t <;> rfl

theorem forms_mul_comm (u v : UnpackedFloat) :
    UnpackedFloat.mul .binary64 u v = UnpackedFloat.mul .binary64 v u := by
  cases u <;> cases v <;>
    simp [UnpackedFloat.mul, Sign.mul_comm, Nat.mul_comm, Int.add_comm]

theorem forms_add_comm (u v : UnpackedFloat) :
    UnpackedFloat.add .binary64 u v = UnpackedFloat.add .binary64 v u := by
  cases u with
  | infinity s | zero s =>
    cases v with
    | infinity t | zero t => cases s <;> cases t <;> rfl
    | _ => rfl
  | notANumber => cases v <;> rfl
  | finite s m e =>
    cases v with
    | finite t m' e' => simp [UnpackedFloat.add, Int.add_comm, Int.min_comm]
    | _ => rfl

theorem float_add_comm (x y : Float) : x + y = y + x :=
  eq_of_unpack (by rw [unpack_add, unpack_add, forms_add_comm])

theorem float_mul_comm (x y : Float) : x * y = y * x :=
  eq_of_unpack (by rw [unpack_mul, unpack_mul, forms_mul_comm])

/-! ## Distances

The two differences have one magnitude. Rounding and packing treat the sign apart
from all else, so this goes through both. -/

/-- Forms that differ in their sign at most. -/
def SameAbs (u v : UnpackedFloat) : Prop :=
  u.abs = v.abs

theorem sameAbs_packComponents (s t : Sign) (exponent : BitVec 11) (mantissa : BitVec 52) :
    SameAbs
      (UnpackedFloat.unpack .binary64 (UnpackedFloat.packComponents .binary64 s exponent mantissa))
      (UnpackedFloat.unpack .binary64
        (UnpackedFloat.packComponents .binary64 t exponent mantissa)) := by
  simp only [SameAbs, UnpackedFloat.unpack, UnpackedFloat.unpackMantissa_packComponents,
    UnpackedFloat.unpackExponent_packComponents, apply_ite UnpackedFloat.abs,
    apply_dite UnpackedFloat.abs]
  simp only [UnpackedFloat.abs]

/-- The sign has a bit of its own. -/
theorem SameAbs.pack (h : SameAbs u v) :
    SameAbs (Float.Model.pack u).unpack (Float.Model.pack v).unpack := by
  show SameAbs (UnpackedFloat.unpack .binary64 (UnpackedFloat.pack .binary64 u))
    (UnpackedFloat.unpack .binary64 (UnpackedFloat.pack .binary64 v))
  cases u with
  | notANumber =>
    cases v with
    | notANumber => exact Eq.refl (UnpackedFloat.abs _)
    | _ => exact nomatch h
  | infinity s =>
    cases v with
    | infinity t => exact sameAbs_packComponents s t _ _
    | _ => exact nomatch h
  | zero s =>
    cases v with
    | zero t => exact sameAbs_packComponents s t _ _
    | _ => exact nomatch h
  | finite s m e =>
    cases v with
    | finite t m' e' =>
      obtain ⟨-, rfl, rfl⟩ := UnpackedFloat.finite.inj h
      rw [UnpackedFloat.pack, UnpackedFloat.pack]
      dsimp only
      split
      · exact sameAbs_packComponents s t _ _
      · split <;> exact sameAbs_packComponents s t _ _
    | _ => exact nomatch h

theorem sameAbs_round (s t : Sign) (m : Nat) (e : Int) :
    SameAbs (UnpackedFloat.round .binary64 s m e) (UnpackedFloat.round .binary64 t m e) := by
  rw [SameAbs, UnpackedFloat.round, UnpackedFloat.round]
  dsimp only
  rw [UnpackedFloat.roundWithAccuracy, UnpackedFloat.roundWithAccuracy]
  dsimp only
  split <;> rfl

/-- Opposite integers are rounded to numbers of one magnitude. -/
theorem sameAbs_normalize (n e : Int) :
    SameAbs (UnpackedFloat.normalize .binary64 n e .positive)
      (UnpackedFloat.normalize .binary64 (-n) e .positive) := by
  rw [UnpackedFloat.normalize, UnpackedFloat.normalize]
  rcases Int.lt_trichotomy n 0 with neg | rfl | pos
  · rw [Int.compare_eq_lt.mpr neg, Int.compare_eq_gt.mpr (by omega)]
    exact sameAbs_round _ _ _ e
  · rfl
  · rw [Int.compare_eq_gt.mpr pos, Int.compare_eq_lt.mpr (by omega), Int.neg_neg]
    exact sameAbs_round _ _ _ e

theorem sameAbs_sub (u v : UnpackedFloat) :
    SameAbs (UnpackedFloat.sub .binary64 u v) (UnpackedFloat.sub .binary64 v u) := by
  cases u with
  | notANumber => cases v <;> rfl
  | infinity s | zero s =>
    cases v with
    | infinity t | zero t => cases s <;> cases t <;> rfl
    | _ => rfl
  | finite s m e =>
    cases v with
    | finite t m' e' =>
      have opposite := sameAbs_normalize
        (s.apply (UnpackedFloat.decreaseExponent m e (min e e')).1 -
          t.apply (UnpackedFloat.decreaseExponent m' e' (min e e')).1) (min e e')
      rw [Int.neg_sub] at opposite
      rw [UnpackedFloat.sub, UnpackedFloat.sub, Int.min_comm e' e]
      exact opposite
    | _ => rfl

/-- The distance of two numbers. -/
theorem abs_sub_swap (x y : Float) : (x - y).abs = (y - x).abs := by
  have forms : (x - y).toModel.unpack.abs = (y - x).toModel.unpack.abs :=
    (sameAbs_sub x.toModel.unpack y.toModel.unpack).pack
  exact eq_of_unpack (by rw [unpack_abs, unpack_abs, forms])

/-! ## Scales

Scales match if their distance is within a part of the larger one. Of two that
compare equal it does not matter which is the larger: such numbers agree, and
agreement is all that a comparison sees. -/

theorem forms_isNaN_abs (u : UnpackedFloat) : u.abs.isNaN = u.isNaN := by
  cases u <;> rfl

theorem isNaN_abs (x : Float) : x.abs.isNaN = x.isNaN := by
  have same : SameAbs x.abs.toModel.unpack x.toModel.unpack := by
    have abs : SameAbs x.toModel.unpack.abs x.toModel.unpack := by
      cases x.toModel.unpack <;> exact Eq.refl (UnpackedFloat.abs _)
    have packed := abs.pack
    rwa [← unpack_abs, model_pack_unpack] at packed
  show x.abs.toModel.unpack.isNaN = x.toModel.unpack.isNaN
  rw [← forms_isNaN_abs, same, forms_isNaN_abs]

theorem isNaN_sub (h : x.isNaN = true ∨ y.isNaN = true) : (x - y).isNaN = true := by
  have none : UnpackedFloat.sub .binary64 x.toModel.unpack y.toModel.unpack = .notANumber := by
    rcases h with h | h
    · rw [UnpackedFloat.isNaN_iff.mp h]
      rfl
    · rw [UnpackedFloat.isNaN_iff.mp h]
      cases x.toModel.unpack <;> rfl
  show (x - y).toModel.unpack.isNaN = true
  rw [unpack_sub, none]
  rfl

theorem not_le_of_isNaN (h : x.isNaN = true) : ¬ x ≤ y := by
  rw [le_iff, UnpackedFloat.isNaN_iff.mp h]
  rintro ⟨o, none, -⟩
  exact nomatch none

theorem Agree.le_iff {x' y' : Float} (hx : Agree x x') (hy : Agree y y') : x ≤ y ↔ x' ≤ y' := by
  rw [CipherFlow.le_iff, CipherFlow.le_iff, FormsAgree.compare hx hy]

/-- The order of operands decides only between zeros. -/
theorem larger_comm (hx : x.isNaN = false) (hy : y.isNaN = false) :
    Agree (Scheme.larger x y) (Scheme.larger y x) := by
  have swap := compare_swap x.toModel.unpack y.toModel.unpack
  obtain ⟨o, ho⟩ := compare_isSome hx hy
  rw [ho] at swap
  simp only [Scheme.larger, CipherFlow.lt_iff, swap, ho]
  cases o with
  | lt => simp [Agree.refl]
  | eq => exact formsAgree_of_compare ho
  | gt => simp [Agree.refl]

/-- Scales match in either order. -/
theorem Scheme.scalesMatch_comm (x y : Float) : scalesMatch x y = scalesMatch y x := by
  unfold scalesMatch
  rw [abs_sub_swap y x, decide_eq_decide]
  by_cases nan : x.isNaN = true ∨ y.isNaN = true
  · -- With something that is no number the comparison fails in both orders.
    have far : (x - y).abs.isNaN = true := (isNaN_abs _).trans (isNaN_sub nan)
    exact iff_of_false (not_le_of_isNaN far) (not_le_of_isNaN far)
  · simp only [not_or, Bool.not_eq_true] at nan
    have tolerance := larger_comm ((isNaN_abs x).trans nan.1) ((isNaN_abs y).trans nan.2)
    exact Agree.le_iff (.refl _) (.mul (.refl _) tolerance)

theorem Scheme.not_isNaN_of_scalesMatch (h : scalesMatch x y = true) :
    x.isNaN = false ∧ y.isNaN = false := by
  have near : (x - y).abs ≤ 1e-9 * larger x.abs y.abs := of_decide_eq_true h
  have number : (x - y).isNaN = false := by
    rw [← isNaN_abs]
    exact eq_false_of_ne_true fun far => not_le_of_isNaN far near
  constructor
  · exact eq_false_of_ne_true fun nan => nomatch number.symm.trans (isNaN_sub (.inl nan))
  · exact eq_false_of_ne_true fun nan => nomatch number.symm.trans (isNaN_sub (.inr nan))

/-- Products of stored numbers commute, other than those of two that are not
numbers. -/
theorem Binary64.mul_comm_of_not_isNaN {a b : Binary64} (ha : a.toFloat.isNaN = false)
    (hb : b.toFloat.isNaN = false) : a * b = b * a := by
  show combine (· * ·) a b = combine (· * ·) b a
  simp only [combine, ha, hb, Bool.false_eq_true, if_false, float_mul_comm a.toFloat b.toFloat]

end CipherFlow
