import CipherFlow.Proofs.Number.Agreement

/-!
# Values and rounding of unpacked forms

Operations on numbers are operations on their unpacked forms. The form of a
number shows its exact value. A form with all fifty-three digits survives
packing, and rounding gives such a form: it keeps the leading digits, adds one
in the last place or not, and adds nothing if no digit is lost.

Main lemmas: `value_eq` for values, `unpack_pack_normal` for packing, and
`roundWithAccuracy_normal` for rounding. Rounding may carry through all digits, and
then the result is the next power of two; this is the one case in which cutting off
digits changes the exponent (`roundedTo_normal`).
-/

namespace CipherFlow

open Float.Model (UnpackedFloat Format totalExponent)
open Float.Model.UnpackedFloat (Sign ExtendedMantissa)

/-! ## Values -/

namespace Binary64

/-- The value of an unpacked form. -/
def Value.ofForm : UnpackedFloat → Value
  | .notANumber => .nan
  | .infinity s => .infinite (s == .negative)
  | .zero s => .finite (s == .negative) 0 (-1074)
  | .finite s m e _ => .finite (s == .negative) m e

section Fields

variable (b : BitVec (Format.numBits .binary64))

theorem toNat_unpackMantissa :
    (@UnpackedFloat.unpackMantissa .binary64 b).toNat = b.toNat % Nat.pow 2 52 := by
  rw [UnpackedFloat.unpackMantissa_def, BitVec.extractLsb'_toNat, Nat.shiftRight_zero]
  rfl

theorem toNat_unpackExponent :
    (@UnpackedFloat.unpackExponent .binary64 b).toNat =
      b.toNat / Nat.pow 2 52 % Nat.pow 2 11 := by
  rw [UnpackedFloat.unpackExponent_def, BitVec.extractLsb'_toNat, Nat.shiftRight_eq_div_pow]
  rfl

theorem ofBitVec_unpackSign :
    (Sign.ofBitVec (@UnpackedFloat.unpackSign .binary64 b) == .negative) =
      (b.toNat / Nat.pow 2 63 % 2 == 1) := by
  have bit : (@UnpackedFloat.unpackSign .binary64 b).toNat =
      b.toNat / Nat.pow 2 63 % 2 := by
    rw [UnpackedFloat.unpackSign_def, BitVec.extractLsb'_toNat, Nat.shiftRight_eq_div_pow]
    rfl
  rw [← bit]
  generalize @UnpackedFloat.unpackSign .binary64 b = s
  revert s
  decide

/-- The fields of the bits are those that unpacking looks at. -/
theorem Value.ofBits_toNat :
    Value.ofBits b.toNat = .ofForm (UnpackedFloat.unpack .binary64 b) := by
  have infinite : @UnpackedFloat.unpackExponent .binary64 b = -1#11 ↔
      b.toNat / Nat.pow 2 52 % Nat.pow 2 11 = 2047 := by
    rw [← toNat_unpackExponent, ← BitVec.toNat_inj]
    rfl
  have small : @UnpackedFloat.unpackExponent .binary64 b = 0#11 ↔
      b.toNat / Nat.pow 2 52 % Nat.pow 2 11 = 0 := by
    rw [← toNat_unpackExponent, ← BitVec.toNat_inj]
    rfl
  have zero : @UnpackedFloat.unpackMantissa .binary64 b = 0#52 ↔
      b.toNat % Nat.pow 2 52 = 0 := by
    rw [← toNat_unpackMantissa, ← BitVec.toNat_inj]
    rfl
  rw [Value.ofBits, UnpackedFloat.unpack, ← ofBitVec_unpackSign]
  dsimp only
  -- The largest exponent is for infinities and not-a-number, the least one for small numbers.
  by_cases all : b.toNat / Nat.pow 2 52 % Nat.pow 2 11 = 2047
  · rw [if_pos all, if_pos (infinite.mpr all)]
    by_cases none : b.toNat % Nat.pow 2 52 = 0
    · rw [if_pos none, if_pos (zero.mpr none)]
      rfl
    · rw [if_neg none, if_neg (mt zero.mp none)]
      rfl
  · rw [if_neg all, if_neg (mt infinite.mp all)]
    by_cases least : b.toNat / Nat.pow 2 52 % Nat.pow 2 11 = 0
    · rw [if_pos least, if_pos (small.mpr least)]
      by_cases none : b.toNat % Nat.pow 2 52 = 0
      · rw [none, dif_pos (zero.mpr none)]
        rfl
      · rw [dif_neg (mt zero.mp none)]
        refine congrArg₂ (Value.finite _) (toNat_unpackMantissa b).symm ?_
        rw [toNat_unpackExponent, least]
        rfl
    · rw [if_neg least, if_neg (mt small.mp least)]
      refine congrArg₂ (Value.finite _) ?_ ?_
      · rw [BitVec.toNat_append, ← Nat.shiftLeft_add_eq_or_of_lt (BitVec.isLt _),
          toNat_unpackMantissa]
        rfl
      · rw [toNat_unpackExponent]
        rfl

end Fields

/-- The exact value of a number is that of its unpacked form. -/
theorem value_eq (x : Float) : value x = .ofForm x.toModel.unpack :=
  Value.ofBits_toNat x.toBits.toBitVec

/-- The numbers that are not finite have no zero or finite form. -/
theorem isFinite_iff {x : Float} :
    isFinite x = true ↔ (∃ s, x.toModel.unpack = .zero s) ∨
      ∃ s m e pos, x.toModel.unpack = .finite s m e pos := by
  rw [isFinite, value_eq]
  cases x.toModel.unpack with
  | finite s m e pos => exact ⟨fun _ => .inr ⟨s, m, e, pos, rfl⟩, fun _ => rfl⟩
  | _ => simp [Value.ofForm]

end Binary64

/-! ## Packing -/

/-- All fifty-three digits, and an exponent in range. -/
structure IsNormal (m : Nat) (e : Int) : Prop where
  le : 2 ^ 52 ≤ m
  lt : m < 2 ^ 53
  low : -1074 ≤ e
  high : e ≤ 971

variable {s : Sign} {m : Nat} {e : Int}

theorem IsNormal.log2 (h : IsNormal m e) : m.log2 = 52 :=
  (Nat.log2_eq_iff (by have := h.le; omega)).mpr ⟨h.le, h.lt⟩

variable {b : Nat}

/-- The fields of a form with all digits: the leading digit is not stored. -/
theorem pack_normal (h : IsNormal m e) (pos : 0 < m) (biased : (b : Int) = e + 1075) :
    UnpackedFloat.pack .binary64 (.finite s m e pos) =
      UnpackedFloat.packComponents .binary64 s (BitVec.ofNat 11 b) (BitVec.ofNat 52 m) := by
  have field : (e + (Format.exponentBias .binary64 : Int) +
      (Format.mantissaBitsWithoutImplicit .binary64 : Int)).toNat = b := by
    show (e + 1023 + 52).toNat = b
    omega
  have high := h.high
  rw [UnpackedFloat.pack]
  dsimp only
  rw [field, if_neg, if_pos]
  · rw [h.log2]
    rfl
  · show ¬2 ^ 11 ≤ b + 1
    omega

/-- Such fields are read as they were written. -/
theorem unpack_packComponents (h : IsNormal m e) (pos : 0 < m) (biased : (b : Int) = e + 1075) :
    UnpackedFloat.unpack .binary64
        (UnpackedFloat.packComponents .binary64 s (BitVec.ofNat 11 b) (BitVec.ofNat 52 m)) =
      .finite s m e pos := by
  obtain ⟨le, lt, low, high⟩ := h
  have exponent : (BitVec.ofNat 11 b).toNat = b := by
    rw [BitVec.toNat_ofNat, Nat.mod_eq_of_lt (by omega)]
  have mantissa : (BitVec.ofNat 52 m).toNat = m - 2 ^ 52 := by
    rw [BitVec.toNat_ofNat]
    omega
  have finite : BitVec.ofNat 11 b ≠ -1#11 := by
    rw [ne_eq, ← BitVec.toNat_inj, exponent]
    show ¬b = 2047
    omega
  have leading : BitVec.ofNat 11 b ≠ 0#11 := by
    rw [ne_eq, ← BitVec.toNat_inj, exponent]
    show ¬b = 0
    omega
  rw [UnpackedFloat.unpack]
  simp only [UnpackedFloat.unpackMantissa_packComponents,
    UnpackedFloat.unpackExponent_packComponents, UnpackedFloat.unpackSign_packComponents,
    UnpackedFloat.Sign.ofBitVec_toBitVec]
  rw [if_neg finite, if_neg leading]
  congr 1
  · have one : (1#1).toNat <<< 52 = 2 ^ 52 := by decide
    rw [BitVec.toNat_append, ← Nat.shiftLeft_add_eq_or_of_lt (BitVec.isLt _), mantissa, one]
    omega
  · rw [exponent]
    show (b : Int) - (1023 + 52) = e
    omega

/-- A form with all digits survives packing. -/
theorem unpack_pack_normal (h : IsNormal m e) (pos : 0 < m) :
    (Float.Model.pack (.finite s m e pos)).unpack = .finite s m e pos := by
  have low := h.low
  have biased : ((e + 1075).toNat : Int) = e + 1075 := Int.toNat_of_nonneg (by omega)
  show UnpackedFloat.unpack .binary64 (UnpackedFloat.pack .binary64 (.finite s m e pos)) = _
  rw [pack_normal h pos biased, unpack_packComponents h pos biased]

/-- Every such form is the form of a number. -/
theorem Binary64.exists_value (h : IsNormal m e) :
    ∃ x, Binary64.value x = .finite false m e := by
  have pos : 0 < m := (Nat.two_pow_pos 52).trans_le h.le
  refine ⟨⟨Float.Model.pack (.finite .positive m e pos)⟩, ?_⟩
  rw [value_eq, unpack_pack_normal h]
  rfl

/-! ## Rounding -/

theorem mantissa_shiftRight (em : ExtendedMantissa) (k : Nat) :
    (em >>> k).mantissa = em.mantissa / 2 ^ k := by
  induction k with
  | zero => exact (Nat.div_one _).symm
  | succ k ih =>
    show (em >>> k).mantissa / 2 = _
    rw [ih, Nat.div_div_eq_div_mul, Nat.pow_succ]

/-- Shifting without loss keeps a mantissa exact. -/
theorem shiftRight_exact (m k : Nat) :
    ExtendedMantissa.mk (m * 2 ^ k) false false >>> k = ⟨m, false, false⟩ := by
  induction k generalizing m with
  | zero =>
    rw [Nat.pow_zero, Nat.mul_one]
    rfl
  | succ k ih =>
    have shifted := ih (m * 2)
    rw [Nat.mul_assoc, ← Nat.pow_succ'] at shifted
    show (ExtendedMantissa.mk _ false false >>> k).shiftRightOne = _
    rw [shifted]
    simp [ExtendedMantissa.shiftRightOne]

/-- Rounding adds one to the mantissa or nothing. -/
theorem roundedMantissa_bounds (em : ExtendedMantissa) :
    em.mantissa ≤ em.roundedMantissa ∧ em.roundedMantissa ≤ em.mantissa + 1 := by
  obtain ⟨m, r, s⟩ := em
  cases r <;> cases s
  · exact ⟨Nat.le_refl m, Nat.le_succ m⟩
  · exact ⟨Nat.le_refl m, Nat.le_succ m⟩
  · show m ≤ m + m % 2 ∧ m + m % 2 ≤ m + 1
    omega
  · exact ⟨Nat.le_succ m, Nat.le_refl _⟩

/-- A mantissa of more than fifty-three digits, cut to that many and rounded. -/
def roundedTo (m k : Nat) : Nat :=
  (ExtendedMantissa.mk m false false >>> k).roundedMantissa

theorem roundedTo_bounds (m k : Nat) :
    m / 2 ^ k ≤ roundedTo m k ∧ roundedTo m k ≤ m / 2 ^ k + 1 := by
  have bounds := roundedMantissa_bounds (ExtendedMantissa.mk m false false >>> k)
  rw [mantissa_shiftRight] at bounds
  exact bounds

/-- Nothing is added if nothing is cut off. -/
theorem roundedTo_exact (m k : Nat) : roundedTo (m * 2 ^ k) k = m := by
  rw [roundedTo, shiftRight_exact]
  rfl

/-- The digits that are cut off are those past the fifty-third. -/
theorem shiftToTarget_normal {k : Nat} (log : m.log2 = 52 + k) (low : -1074 ≤ e + k) :
    UnpackedFloat.shiftToTargetExponent .binary64 m e .exact =
      (ExtendedMantissa.mk m false false >>> k, e + k) := by
  have target : Format.targetExponent .binary64 (totalExponent m e) = e + k := by
    rw [Format.targetExponent, totalExponent, log]
    show max (((52 + k : Nat) : Int) + 1 + e - 53) (-1074) = e + k
    omega
  have amount : (Format.targetExponent .binary64 (totalExponent m e) - e).toNat = k := by
    rw [target]
    omega
  rw [UnpackedFloat.shiftToTargetExponent, UnpackedFloat.shiftToExponent, amount]
  rfl

theorem ne_zero_of_log2 {k : Nat} (log : m.log2 = 52 + k) : m ≠ 0 := by
  rintro rfl
  rw [Nat.log2_zero] at log
  omega

/-- A mantissa that is cut to fifty-three digits has that many or, where adding
one carries through all of them, is the next power of two. -/
theorem roundedTo_normal {k : Nat} (log : m.log2 = 52 + k) :
    2 ^ 52 ≤ roundedTo m k ∧ roundedTo m k ≤ 2 ^ 53 := by
  obtain ⟨le, lt⟩ := (Nat.log2_eq_iff (ne_zero_of_log2 log)).mp log
  have lower : 2 ^ 52 ≤ m / 2 ^ k := by
    rw [Nat.le_div_iff_mul_le (Nat.two_pow_pos k), ← Nat.pow_add]
    exact le
  have upper : m / 2 ^ k < 2 ^ 53 := by
    rw [Nat.div_lt_iff_lt_mul (Nat.two_pow_pos k), ← Nat.pow_add]
    exact lt.trans_eq (congrArg (2 ^ ·) (by omega))
  obtain ⟨least, most⟩ := roundedTo_bounds m k
  exact ⟨lower.trans least, most.trans upper⟩

/-- Rounding leaves fifty-three digits. -/
theorem roundWithAccuracy_normal {k : Nat} (log : m.log2 = 52 + k) (low : -1074 ≤ e + k) :
    UnpackedFloat.roundWithAccuracy .binary64 s m e .exact =
      if roundedTo m k = 2 ^ 53 then .finite s (2 ^ 52) (e + k + 1) (by decide)
      else .finite s (roundedTo m k) (e + k)
        ((Nat.two_pow_pos 52).trans_le (roundedTo_normal log).1) := by
  obtain ⟨least, most⟩ := roundedTo_normal log
  rw [UnpackedFloat.roundWithAccuracy, shiftToTarget_normal log low]
  change (let (shifted, e') :=
      UnpackedFloat.shiftToTargetExponent .binary64 (roundedTo m k) (e + k) .exact
    if h : shifted.mantissa = 0 then UnpackedFloat.zero s
    else .finite s shifted.mantissa e' (Nat.pos_of_ne_zero h)) = _
  by_cases carry : roundedTo m k = 2 ^ 53
  · have log' : (roundedTo m k).log2 = 52 + 1 := by rw [carry, Nat.log2_two_pow]
    rw [if_pos carry, shiftToTarget_normal log' (by omega), carry]
    rfl
  · have log' : (roundedTo m k).log2 = 52 + 0 :=
      (Nat.log2_eq_iff (by omega)).mpr ⟨least, by omega⟩
    have nonzero : roundedTo m k ≠ 0 := by omega
    rw [if_neg carry, shiftToTarget_normal log' (by omega)]
    exact (dif_neg nonzero).trans (by rw [Int.natCast_zero, Int.add_zero]; rfl)

end CipherFlow
