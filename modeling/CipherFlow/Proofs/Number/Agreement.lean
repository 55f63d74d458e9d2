import CipherFlow.Element.Nonlinear
import Mathlib

/-!
# Numbers that agree

Two floating-point numbers agree if they are the same or both are zeros. This
is equality as floating-point arithmetic tests it, except that not-a-number
agrees with itself, so it is an equivalence. Sums, products and the nonlinear
functions respect it. Operations on numbers are operations on their unpacked
forms, where all of this is a matter of cases.

Main lemmas: `Agree.add`, `Agree.mul`, `Agree.maxNumber` and `Agree.minNumber`, and
`Agree.eq_or_beq` for what agreement says in the end. All of them come from forms
(`FormsAgree.congr`): it is enough to look at zeros on either side.
-/

namespace CipherFlow

open Float.Model (UnpackedFloat)
open Float.Model.UnpackedFloat (Sign)

/-! ## Unpacked forms -/

/-- The same unpacked form, or two zeros. -/
def FormsAgree (u v : UnpackedFloat) : Prop :=
  u = v ∨ ∃ s t, u = .zero s ∧ v = .zero t

variable {u u' v v' : UnpackedFloat}

theorem FormsAgree.trans {w : UnpackedFloat} (h : FormsAgree u v) (h' : FormsAgree v w) :
    FormsAgree u w := by
  rcases h with rfl | ⟨s, t, rfl, rfl⟩
  · exact h'
  · rcases h' with rfl | ⟨_, t', -, rfl⟩
    · exact .inr ⟨s, t, rfl, rfl⟩
    · exact .inr ⟨s, t', rfl, rfl⟩

theorem FormsAgree.symm (h : FormsAgree u v) : FormsAgree v u := by
  rcases h with rfl | ⟨s, t, rfl, rfl⟩
  · exact .inl rfl
  · exact .inr ⟨t, s, rfl, rfl⟩

/-- An operation respects agreement if it does for zeros on either side. -/
theorem FormsAgree.congr {op : UnpackedFloat → UnpackedFloat → UnpackedFloat}
    (left : ∀ s t v, FormsAgree (op (.zero s) v) (op (.zero t) v))
    (right : ∀ s t u, FormsAgree (op u (.zero s)) (op u (.zero t)))
    (hu : FormsAgree u u') (hv : FormsAgree v v') : FormsAgree (op u v) (op u' v') := by
  have first : FormsAgree (op u v) (op u' v) := by
    rcases hu with rfl | ⟨s, t, rfl, rfl⟩
    · exact .inl rfl
    · exact left s t v
  rcases hv with rfl | ⟨s, t, rfl, rfl⟩
  · exact first
  · exact first.trans (right s t u')

theorem FormsAgree.add (hu : FormsAgree u u') (hv : FormsAgree v v') :
    FormsAgree (UnpackedFloat.add .binary64 u v) (UnpackedFloat.add .binary64 u' v') := by
  have zeros : ∀ s t : Sign, ∃ r, UnpackedFloat.add .binary64 (.zero s) (.zero t) = .zero r := by
    intro s t
    cases s <;> cases t <;> exact ⟨_, rfl⟩
  refine FormsAgree.congr (fun s t v => ?_) (fun s t u => ?_) hu hv
  · cases v with
    | zero r =>
      obtain ⟨a, ha⟩ := zeros s r
      obtain ⟨b, hb⟩ := zeros t r
      exact .inr ⟨a, b, ha, hb⟩
    | _ => exact .inl rfl
  · cases u with
    | zero r =>
      obtain ⟨a, ha⟩ := zeros r s
      obtain ⟨b, hb⟩ := zeros r t
      exact .inr ⟨a, b, ha, hb⟩
    | _ => exact .inl rfl

theorem FormsAgree.mul (hu : FormsAgree u u') (hv : FormsAgree v v') :
    FormsAgree (UnpackedFloat.mul .binary64 u v) (UnpackedFloat.mul .binary64 u' v') := by
  refine FormsAgree.congr (fun s t v => ?_) (fun s t u => ?_) hu hv
  · cases v with
    | zero r | finite r => exact .inr ⟨s * r, t * r, rfl, rfl⟩
    | _ => exact .inl rfl
  · cases u with
    | zero r | finite r => exact .inr ⟨r * s, r * t, rfl, rfl⟩
    | _ => exact .inl rfl

/-- Zeros compare alike. -/
theorem FormsAgree.compare (hu : FormsAgree u u') (hv : FormsAgree v v') :
    u.compare v = u'.compare v' := by
  rcases hu with rfl | ⟨s, t, rfl, rfl⟩ <;> rcases hv with rfl | ⟨s', t', rfl, rfl⟩
  · rfl
  · cases u with
    | infinity s | finite s => cases s <;> rfl
    | _ => rfl
  · cases v with
    | infinity s | finite s => cases s <;> rfl
    | _ => rfl
  · rfl

theorem FormsAgree.isNaN (h : FormsAgree u v) : u.isNaN = v.isNaN := by
  rcases h with rfl | ⟨s, t, rfl, rfl⟩ <;> rfl

/-- Forms that compare equal agree. -/
theorem formsAgree_of_compare (h : u.compare v = some .eq) : FormsAgree u v := by
  have equal : u.beq v = true := by
    rw [UnpackedFloat.beq, h]
    rfl
  obtain ⟨-, -, rfl | ⟨rfl, rfl⟩ | ⟨rfl, rfl⟩⟩ :=
    (UnpackedFloat.beq_iff_ne_notANumber_and_eq u v).mp equal
  · exact .inl rfl
  · exact .inr ⟨_, _, rfl, rfl⟩
  · exact .inr ⟨_, _, rfl, rfl⟩

/-- Comparing the other way round gives the opposite. -/
theorem compare_swap (u v : UnpackedFloat) :
    v.compare u = (u.compare v).map Ordering.swap := by
  have finite : ∀ (m m' : Nat) (e e' : Int), (compare e' e).then (compare m' m) =
      ((compare e e').then (compare m m')).swap := by
    intro m m' e e'
    rw [Ordering.swap_then, ← Std.OrientedCmp.eq_swap, ← Std.OrientedCmp.eq_swap]
  cases u with
  | notANumber =>
    cases v with
    | infinity t | finite t => cases t <;> rfl
    | _ => rfl
  | infinity s =>
    cases v with
    | infinity t | finite t => cases s <;> cases t <;> rfl
    | _ => cases s <;> rfl
  | zero s =>
    cases v with
    | infinity t | finite t => cases t <;> rfl
    | _ => rfl
  | finite s m e pos =>
    cases v with
    | finite t m' e' pos' =>
      cases s <;> cases t
      · exact congrArg some (by rw [finite m m' e e', Ordering.swap_swap])
      · rfl
      · rfl
      · exact congrArg some (finite m m' e e')
    | notANumber => rfl
    | infinity t => cases s <;> cases t <;> rfl
    | zero t => cases s <;> rfl

/-- Only not-a-number does not compare. -/
theorem compare_isSome (hu : u.isNaN = false) (hv : v.isNaN = false) :
    ∃ o, u.compare v = some o := by
  cases u with
  | notANumber => exact nomatch hu
  | infinity s =>
    cases v with
    | notANumber => exact nomatch hv
    | infinity t | finite t => cases s <;> cases t <;> exact ⟨_, rfl⟩
    | zero t => cases s <;> exact ⟨_, rfl⟩
  | zero s =>
    cases v with
    | notANumber => exact nomatch hv
    | infinity t | finite t => cases t <;> exact ⟨_, rfl⟩
    | zero t => exact ⟨_, rfl⟩
  | finite s =>
    cases v with
    | notANumber => exact nomatch hv
    | infinity t | finite t => cases s <;> cases t <;> exact ⟨_, rfl⟩
    | zero t => cases s <;> exact ⟨_, rfl⟩

/-! ## Packing -/

/-- Unpacking loses nothing: the bits of not-a-number are fixed. -/
theorem model_pack_unpack (m : Float.Model) : Float.Model.pack m.unpack = m := by
  obtain ⟨bits, valid⟩ := m
  have round : UnpackedFloat.pack .binary64 (UnpackedFloat.unpack .binary64 bits.toBitVec) =
      bits.toBitVec := UnpackedFloat.pack_unpack_of_valid valid
  simp only [Float.Model.pack, Float.Model.unpack, round]

theorem unpack_pack_zero (s : Sign) : (Float.Model.pack (.zero s)).unpack = .zero s := by
  cases s <;> rfl

/-- Packing forms that agree gives forms that agree. -/
theorem FormsAgree.pack (h : FormsAgree u v) :
    FormsAgree (Float.Model.pack u).unpack (Float.Model.pack v).unpack := by
  rcases h with rfl | ⟨s, t, rfl, rfl⟩
  · exact .inl rfl
  · exact .inr ⟨s, t, unpack_pack_zero s, unpack_pack_zero t⟩

/-! ## Numbers -/

/-- Two numbers are the same, or both are zeros. -/
def Agree (x y : Float) : Prop :=
  FormsAgree x.toModel.unpack y.toModel.unpack

variable {x x' y y' z : Float}

theorem Agree.refl (x : Float) : Agree x x :=
  .inl rfl

theorem Agree.symm (h : Agree x y) : Agree y x :=
  FormsAgree.symm h

theorem Agree.trans (h : Agree x y) (h' : Agree y z) : Agree x z :=
  FormsAgree.trans h h'

theorem Agree.add (hx : Agree x x') (hy : Agree y y') : Agree (x + y) (x' + y') :=
  (FormsAgree.add hx hy).pack

theorem Agree.mul (hx : Agree x x') (hy : Agree y y') : Agree (x * y) (x' * y') :=
  (FormsAgree.mul hx hy).pack

theorem Agree.isNaN (h : Agree x y) : x.isNaN = y.isNaN :=
  FormsAgree.isNaN h

theorem lt_iff : x < y ↔ x.toModel.unpack.compare y.toModel.unpack = some .lt := by
  show decide (x.toModel < y.toModel) = true ↔ _
  rw [decide_eq_true_iff]
  show (x.toModel.unpack.compare y.toModel.unpack == some .lt) = true ↔ _
  rw [beq_iff_eq]

theorem beq_iff : (x == y) = true ↔ x.toModel.unpack.compare y.toModel.unpack = some .eq := by
  show (x.toModel.unpack.compare y.toModel.unpack == some .eq) = true ↔ _
  rw [beq_iff_eq]

theorem Agree.lt_iff (hx : Agree x x') (hy : Agree y y') : x < y ↔ x' < y' := by
  rw [CipherFlow.lt_iff, CipherFlow.lt_iff, FormsAgree.compare hx hy]

/-- Numbers that compare equal agree. -/
theorem agree_of_beq (h : (x == y) = true) : Agree x y :=
  formsAgree_of_compare (beq_iff.mp h)

/-- Not-a-number agrees with itself only. -/
theorem agree_of_isNaN (hx : x.isNaN = true) (hy : y.isNaN = true) : Agree x y :=
  .inl ((UnpackedFloat.isNaN_iff.mp hx).trans (UnpackedFloat.isNaN_iff.mp hy).symm)

/-- A number is known by its form. -/
theorem eq_of_unpack (h : x.toModel.unpack = y.toModel.unpack) : x = y := by
  have model : x.toModel = y.toModel := by
    rw [← model_pack_unpack x.toModel, h, model_pack_unpack]
  cases x
  cases y
  exact congrArg Float.ofModel model

/-- Numbers that agree are the same or compare equal. -/
theorem Agree.eq_or_beq (h : Agree x y) : x = y ∨ (x == y) = true := by
  rcases h with eq | ⟨s, t, hx, hy⟩
  · exact .inl (eq_of_unpack eq)
  · refine .inr (beq_iff.mpr ?_)
    rw [hx, hy]
    rfl

/-- A number is stored without loss. -/
theorem toFloat_ofFloat (x : Float) : (Binary64.ofFloat x).toFloat = x :=
  Float.ofBits_toBits x

/-! ## The nonlinear functions -/

open Nonlinear

theorem Agree.maxNumber (hx : Agree x x') (hy : Agree y y') :
    Agree (maxNumber x y) (maxNumber x' y') := by
  simp only [Nonlinear.maxNumber, hx.isNaN, hy.isNaN, hx.lt_iff hy]
  split
  · exact hy
  · split
    · exact hx
    · split
      · exact hy
      · exact hx

theorem Agree.minNumber (hx : Agree x x') (hy : Agree y y') :
    Agree (minNumber x y) (minNumber x' y') := by
  simp only [Nonlinear.minNumber, hx.isNaN, hy.isNaN, hy.lt_iff hx]
  split
  · exact hy
  · split
    · exact hx
    · split
      · exact hy
      · exact hx

/-- The order of operands decides only between zeros. -/
theorem minNumber_comm (x y : Float) : Agree (minNumber x y) (minNumber y x) := by
  unfold Nonlinear.minNumber
  cases hx : x.isNaN <;> cases hy : y.isNaN <;> simp only [if_true, if_false, Bool.false_eq_true]
  · have swap := compare_swap x.toModel.unpack y.toModel.unpack
    obtain ⟨o, ho⟩ := compare_isSome hx hy
    rw [ho] at swap
    simp only [CipherFlow.lt_iff, swap, ho]
    cases o
    · simp [Agree.refl]
    · exact (formsAgree_of_compare ho)
    · simp [Agree.refl]
  · exact .refl x
  · exact .refl y
  · exact agree_of_isNaN hy hx

end CipherFlow
