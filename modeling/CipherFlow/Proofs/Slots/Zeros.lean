import CipherFlow.Proofs.Number.Forms
import CipherFlow.Proofs.Slots.Encoding

/-!
# Encodings of zero

Lanes that are all zero are encoded as zero coefficients, if at all
(`Slots.Embedding.eq_zero_of_encode`). Zero lanes lie in zero slots, in either packing;
scaling and conjugation keep a slot zero, so the whole spectrum is; a forward transform
of zeros is zeros, whatever the transforms are; and what is rounded is a multiple of
such a zero, which is a zero or not a number, so that nothing but zero is rounded from
it. Zeros come in two signs, so all of this is about the forms of the numbers.
-/

namespace CipherFlow

open Float.Model (UnpackedFloat)

variable {x y : Float}

/-! ## Numbers

A zero times a finite number is a zero. Transforms may make numbers of zeros that
are multiplied by an infinite one at the end, and this gives no number, of which no
integer is rounded. -/

/-- What compares equal to zero has the form of a zero. -/
theorem beq_zero_iff : (x == 0) = true ↔ ∃ s, x.toModel.unpack = .zero s := by
  constructor
  · intro h
    rcases agree_of_beq h with eq | ⟨s, _, eq, -⟩
    · exact ⟨.positive, eq⟩
    · exact ⟨s, eq⟩
  · rintro ⟨s, eq⟩
    rw [beq_iff, eq]
    rfl

theorem neg_beq_zero (hx : (x == 0) = true) : (-x == 0) = true := by
  obtain ⟨s, eq⟩ := beq_zero_iff.mp hx
  refine beq_zero_iff.mpr ⟨-s, ?_⟩
  show (Float.Model.pack x.toModel.unpack.neg).unpack = _
  rw [eq]
  exact unpack_pack_zero (-s)

/-- A product with zero is zero, or not a number. -/
theorem unpack_zero_mul (hx : (x == 0) = true) (y : Float) :
    (∃ s, (x * y).toModel.unpack = .zero s) ∨
      Binary64.isFinite y = false ∧ (x * y).toModel.unpack = .notANumber := by
  obtain ⟨s, eq⟩ := beq_zero_iff.mp hx
  have product : (x * y).toModel.unpack = (Float.Model.pack
      (UnpackedFloat.mul .binary64 x.toModel.unpack y.toModel.unpack)).unpack := rfl
  rw [product, Binary64.isFinite, Binary64.value_eq, eq]
  cases y.toModel.unpack with
  | zero r | finite r => exact .inl ⟨s * r, unpack_pack_zero (s * r)⟩
  | _ =>
    refine .inr ⟨rfl, ?_⟩
    show (Float.Model.pack .notANumber).unpack = _
    rfl

theorem mul_beq_zero (hx : (x == 0) = true) (hy : Binary64.isFinite y = true) :
    (x * y == 0) = true := by
  rcases unpack_zero_mul hx y with zero | ⟨infinite, -⟩
  · exact beq_zero_iff.mpr zero
  · exact nomatch hy.symm.trans infinite

theorem nearestWhole_zero (e : Int) : Binary64.nearestWhole 0 e = 0 := by
  have pos : 0 < Nat.pow 2 (-e).toNat := Nat.two_pow_pos _
  rw [Binary64.nearestWhole, Nat.mul_zero, Nat.zero_mul, Nat.zero_add]
  exact Nat.div_eq_of_lt (by omega)

/-- Nothing but zero is rounded from a product with zero. -/
theorem round_zero_mul {n : Int} (hx : (x == 0) = true)
    (h : Binary64.round? (x * y) = some n) : n = 0 := by
  rw [Binary64.round?, Binary64.value_eq] at h
  rcases unpack_zero_mul hx y with ⟨s, eq⟩ | ⟨-, eq⟩
  · rw [eq] at h
    have rounded := Option.some.inj h
    rw [nearestWhole_zero] at rounded
    rw [← rounded, Binary64.signed]
    split <;> rfl
  · rw [eq] at h
    exact nomatch h

/-! ## Slots -/

namespace Slot

variable {z : Slot Float}

theorem isZero_iff : z.isZero = true ↔ (z.re == 0) = true ∧ (z.im == 0) = true := by
  rw [isZero, Bool.and_eq_true]

theorem isZero_zero : (⟨0, 0⟩ : Slot Float).isZero = true := by
  decide

/-- A real zero. -/
theorem isZero_real {x : Float} (hx : (x == 0) = true) : (⟨x, 0⟩ : Slot Float).isZero = true :=
  isZero_iff.mpr ⟨hx, (isZero_iff.mp isZero_zero).2⟩

theorem isZero_conj (h : z.isZero = true) : z.conj.isZero = true := by
  obtain ⟨re, im⟩ := isZero_iff.mp h
  exact isZero_iff.mpr ⟨re, neg_beq_zero im⟩

theorem isZero_scaleBy {r : Float} (hr : Binary64.isFinite r = true) (h : z.isZero = true) :
    (z.scaleBy r).isZero = true := by
  obtain ⟨re, im⟩ := isZero_iff.mp h
  exact isZero_iff.mpr ⟨mul_beq_zero re hr, mul_beq_zero im hr⟩

end Slot

/-- A last lane without a partner has a zero beside it. -/
theorem Packing.isZero_pairs {lanes : List Float} (zeros : ∀ x ∈ lanes, (x == 0) = true) :
    ∀ z ∈ pairs lanes, z.isZero = true := by
  induction lanes using pairs.induct with
  | case1 x y rest ih =>
    have first : Slot.isZero ⟨x, y⟩ = true :=
      Slot.isZero_iff.mpr ⟨zeros x (by simp), zeros y (by simp)⟩
    exact List.forall_mem_cons.mpr ⟨first, ih fun z hz => zeros z (by simp [hz])⟩
  | case2 x =>
    exact List.forall_mem_singleton.mpr (Slot.isZero_real (zeros x (by simp)))
  | case3 => exact fun _ hz => nomatch hz

/-- Zero lanes lie in zero slots. -/
theorem Packing.isZero_slotsOf {lanes : List Float} (zeros : ∀ x ∈ lanes, (x == 0) = true)
    (packing : Packing) (slots : Nat) : ∀ z ∈ packing.slotsOf lanes slots, z.isZero = true := by
  unfold slotsOf
  split
  · intro z hz
    obtain rfl := List.eq_of_mem_replicate hz
    exact Slot.isZero_real (zeros _ (by simp))
  · intro z hz
    obtain rfl := List.eq_of_mem_replicate hz
    exact Slot.isZero_iff.mpr ⟨zeros _ (by simp), zeros _ (by simp)⟩
  · intro z hz
    obtain ⟨x, hx, rfl⟩ := List.mem_map.mp hz
    exact Slot.isZero_real (zeros x hx)
  · exact isZero_pairs zeros

theorem Slots.eq_slotsOf_of_pack {packing : Packing} {lanes : List Float} {count : Nat}
    {slots : List (Slot Float)} (h : pack packing lanes count = .ok slots) :
    slots = packing.slotsOf lanes count := by
  obtain ⟨capacity, -, h⟩ := exists_of_bind_eq_ok h
  dsimp only at h
  split at h
  · exact nomatch h
  · split at h
    · obtain ⟨_, -, h⟩ := exists_of_bind_eq_ok h
      exact (Except.ok.inj h).symm
    · exact (Except.ok.inj h).symm

/-! ## Encoding -/

namespace Slots.Embedding

/-- A spectrum holds the values, their conjugates and zeros. -/
theorem forall_spectrum {α : Type} {P : α → Prop} {zero : α} {conj : α → α} (hzero : P zero)
    (hconj : ∀ x, P x → P (conj x)) (degree : Nat) {values : List α} (h : ∀ x ∈ values, P x) :
    ∀ x ∈ spectrum zero conj degree values, P x := by
  -- What is written has the property, and what is left was there before.
  have place : ∀ (places : List (Nat × α)) (acc : Array α), (∀ gv ∈ places, P gv.2) →
      (∀ x ∈ acc, P x) → ∀ x ∈ places.foldl (fun (acc : Array α) (gv : Nat × α) =>
        (acc.setIfInBounds gv.1 gv.2).setIfInBounds (2 * degree - gv.1) (conj gv.2)) acc, P x := by
    intro places
    induction places with
    | nil => exact fun acc _ hacc => hacc
    | cons gv places ih =>
      intro acc hplaces hacc
      obtain ⟨first, rest⟩ := List.forall_mem_cons.mp hplaces
      refine ih _ rest fun x hx => ?_
      rcases Array.mem_or_eq_of_mem_setIfInBounds hx with hx | rfl
      · rcases Array.mem_or_eq_of_mem_setIfInBounds hx with hx | rfl
        · exact hacc x hx
        · exact first
      · exact hconj _ first
  intro x hx
  refine place _ _ (fun gv hgv => h _ (List.of_mem_zip hgv).2) (fun y hy => ?_) x
    (Array.mem_toList_iff.mp hx)
  rw [Array.eq_of_mem_replicate hy]
  exact hzero

theorem eq_zero_of_roundCoefficient {x y : Float} {c : Int} (hx : (x == 0) = true)
    (h : roundCoefficient (x * y) = .ok c) : c = 0 := by
  unfold roundCoefficient at h
  split at h
  · rename_i n rounded
    obtain rfl := Except.ok.inj h
    exact round_zero_mul hx rounded
  · exact nomatch h

/-- Zero slots are encoded as zero coefficients, if at all. -/
theorem eq_zero_of_encode {e : Embedding} {slots : List (Slot Float)} {scale : Float}
    {coeffs : List Int} (zeros : ∀ z ∈ slots, z.isZero = true)
    (h : e.encode slots scale = .ok coeffs) : ∀ c ∈ coeffs, c = 0 := by
  unfold encode at h
  by_cases long : e.slotCount < slots.length
  · rw [if_pos long] at h
    exact nomatch h
  rw [if_neg long] at h
  by_cases positive : (!Binary64.isPositive scale) = true
  · rw [if_pos positive] at h
    exact nomatch h
  rw [if_neg positive] at h
  obtain ⟨_, -, h⟩ := exists_of_bind_eq_ok h
  have finite : Binary64.isFinite scale = true := by
    rw [Bool.not_eq_true, Bool.not_eq_false'] at positive
    exact (Bool.and_eq_true_iff.mp positive).1
  have scaled : ∀ z ∈ slots.map (·.scaleBy scale), z.isZero = true := by
    intro z hz
    obtain ⟨w, hw, rfl⟩ := List.mem_map.mp hz
    exact Slot.isZero_scaleBy finite (zeros w hw)
  have values := forall_spectrum (P := fun z => Slot.isZero z = true) Slot.isZero_zero
    (fun _ => Slot.isZero_conj) e.degree scaled
  have sums := e.transforms.forward_zeros _ values
  intro c hc
  obtain ⟨z, hz, rounded⟩ := exists_of_mem_of_mapM_eq_ok h c hc
  exact eq_zero_of_roundCoefficient (Slot.isZero_iff.mp (sums z (List.mem_of_mem_take hz))).1
    rounded

end Slots.Embedding

end CipherFlow
