import CipherFlow.Proofs.Number.Whole
import CipherFlow.Scheme.Ciphertext

/-!
# Numbers with a positive sign

Rounding keeps the sign, so a product of positive numbers is at least zero,
though it may be zero or infinite. A positive number therefore matches itself
as a scale: the difference is zero, and the tolerance is at least that.
-/

namespace CipherFlow

open Float.Model (UnpackedFloat)
open Float.Model.UnpackedFloat (Sign)

variable {u : UnpackedFloat} {x y : Float}

/-- A form with a positive sign. -/
def IsNonneg : UnpackedFloat → Prop
  | .notANumber => False
  | .infinity s | .zero s | .finite s .. => s = .positive

theorem unpack_abs : x.abs.toModel.unpack = (Float.Model.pack x.toModel.unpack.abs).unpack :=
  rfl

theorem unpack_sub : (x - y).toModel.unpack =
    (Float.Model.pack (UnpackedFloat.sub .binary64 x.toModel.unpack y.toModel.unpack)).unpack :=
  rfl

theorem le_iff : x ≤ y ↔ ∃ o, x.toModel.unpack.compare y.toModel.unpack = some o ∧ o.isLE := by
  show decide (x.toModel ≤ y.toModel) = true ↔ _
  rw [decide_eq_true_iff]
  show (x.toModel.unpack.compare y.toModel.unpack).any (·.isLE) = true ↔ _
  cases x.toModel.unpack.compare y.toModel.unpack <;> simp

/-- Zero is at most a number with a positive sign. -/
theorem IsNonneg.compare (h : IsNonneg u) :
    ∃ o, (UnpackedFloat.zero .positive).compare u = some o ∧ o.isLE := by
  cases u with
  | notANumber => exact h.elim
  | infinity s | finite s =>
    obtain rfl : s = .positive := h
    exact ⟨.lt, rfl, rfl⟩
  | zero s => exact ⟨.eq, rfl, rfl⟩

/-- Fields with a positive sign are those of a number with a positive sign,
unless they mark that it is not a number. -/
theorem nonneg_packComponents {exponent : BitVec 11} {mantissa : BitVec 52}
    (number : exponent = -1#11 → mantissa = 0#52) :
    IsNonneg (UnpackedFloat.unpack .binary64
      (UnpackedFloat.packComponents .binary64 .positive exponent mantissa)) := by
  rw [UnpackedFloat.unpack]
  simp only [UnpackedFloat.unpackMantissa_packComponents,
    UnpackedFloat.unpackExponent_packComponents, UnpackedFloat.unpackSign_packComponents,
    UnpackedFloat.Sign.ofBitVec_toBitVec]
  split
  · rw [if_pos (number ‹_›)]
    rfl
  · split
    · split <;> rfl
    · rfl

/-- Packing keeps a positive sign. -/
theorem IsNonneg.pack (h : IsNonneg u) : IsNonneg (Float.Model.pack u).unpack := by
  show IsNonneg (UnpackedFloat.unpack .binary64 (UnpackedFloat.pack .binary64 u))
  cases u with
  | notANumber => exact h.elim
  | infinity s =>
    obtain rfl : s = .positive := h
    exact nonneg_packComponents fun _ => rfl
  | zero s =>
    obtain rfl : s = .positive := h
    exact nonneg_packComponents fun _ => rfl
  | finite s m e pos =>
    obtain rfl : s = .positive := h
    rw [UnpackedFloat.pack]
    dsimp only
    split
    · exact nonneg_packComponents fun _ => rfl
    · rename_i small
      split
      · refine nonneg_packComponents fun all => ?_
        have below : ¬2 ^ 11 ≤ _ + 1 := small
        have field := (BitVec.toNat_ofNat _ 11).symm.trans (congrArg BitVec.toNat all)
        rw [Nat.mod_eq_of_lt (by omega)] at field
        exact absurd (show 2 ^ 11 ≤ _ + 1 by rw [field]; decide) below
      · exact nonneg_packComponents fun all => nomatch congrArg BitVec.toNat all

/-- A positive number has a finite form with a positive sign. -/
theorem exists_form_of_isPositive (h : Binary64.isPositive x = true) :
    ∃ m e pos, x.toModel.unpack = .finite .positive m e pos := by
  obtain ⟨finite, positive⟩ := Bool.and_eq_true_iff.mp h
  have above := lt_iff.mp (of_decide_eq_true positive)
  have zero : (0 : Float).toModel.unpack = .zero .positive := by rfl
  rw [zero] at above
  rcases Binary64.isFinite_iff.mp finite with ⟨s, form⟩ | ⟨s, m, e, pos, form⟩
  · rw [form] at above
    exact nomatch above
  · rw [form] at above
    cases s with
    | positive => exact ⟨m, e, pos, form⟩
    | negative => exact nomatch above

/-- A scale matches itself. -/
theorem Scheme.scalesMatch_self (h : Binary64.isPositive x = true) :
    scalesMatch x x = true := by
  obtain ⟨m, e, pos, form⟩ := exists_form_of_isPositive h
  obtain ⟨m', e', pos', tolerance⟩ := exists_form_of_isPositive (x := 1e-9) (by decide +kernel)
  have same : x.abs = x := by
    have abs : x.toModel.unpack.abs = x.toModel.unpack := by
      rw [form]
      rfl
    refine eq_of_unpack ?_
    rw [unpack_abs, abs, model_pack_unpack]
  have difference : (x - x).abs.toModel.unpack = .zero .positive := by
    have none : UnpackedFloat.sub .binary64 x.toModel.unpack x.toModel.unpack =
        .zero .positive := by
      rw [form, UnpackedFloat.sub]
      simp only [Int.sub_self]
      rfl
    rw [unpack_abs, unpack_sub, none, unpack_pack_zero]
    rfl
  have product : IsNonneg (1e-9 * x).toModel.unpack := by
    rw [unpack_mul, tolerance, form]
    refine IsNonneg.pack ?_
    show IsNonneg (UnpackedFloat.roundWithAccuracy _ _ _ _ _)
    rw [UnpackedFloat.roundWithAccuracy]
    dsimp only
    split <;> rfl
  have larger : larger x.abs x.abs = x := by
    rw [same, larger, ite_self]
  refine decide_eq_true (le_iff.mpr ?_)
  rw [larger, difference]
  exact product.compare

end CipherFlow
