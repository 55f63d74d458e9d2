import CipherFlow.Proofs.Number.Whole

/-!
# Numbers up to a power of two

Rounding does not take a number past a power of two, since that is a number
itself. So a product of numbers has at most the bits of its factors together,
and it is finite as long as these are fewer than the largest exponent.
-/

namespace CipherFlow

open Float.Model (UnpackedFloat)

/-- A number from one to a power of two. -/
def IsUpTo (a : Nat) (x : Float) : Prop :=
  ∃ m e pos, x.toModel.unpack = .finite .positive m e pos ∧ 2 ^ 52 ≤ m ∧ m < 2 ^ 53 ∧ -52 ≤ e ∧
    e ≤ a ∧ m ≤ 2 ^ ((a : Int) - e).toNat

variable {a b m n k : Nat} {e : Int} {x y : Float}

theorem IsUpTo.isFinite (h : IsUpTo a x) : Binary64.isFinite x = true := by
  obtain ⟨m, e, pos, form, -⟩ := h
  exact Binary64.isFinite_iff.mpr (.inr ⟨_, m, e, pos, form⟩)

/-- Cutting off digits and rounding stays below what has fewer digits. -/
theorem roundedTo_le {j : Nat} (le : m ≤ 2 ^ (j + k)) : roundedTo m k ≤ 2 ^ j := by
  rw [Nat.pow_add] at le
  rcases le.lt_or_eq with below | rfl
  · have quotient : m / 2 ^ k < 2 ^ j := Nat.div_lt_of_lt_mul (Nat.mul_comm _ _ ▸ below)
    exact (roundedTo_bounds m k).2.trans quotient
  · exact (roundedTo_exact _ k).le

/-- What is rounded from below a power of two stays there. -/
theorem isUpTo_round (log : m.log2 = 52 + k) (low : -52 ≤ e + k) (high : e ≤ a)
    (le : m ≤ 2 ^ ((a : Int) - e).toNat) (range : a ≤ 1023)
    (hx : x.toModel.unpack = (Float.Model.pack
      (UnpackedFloat.roundWithAccuracy .binary64 .positive m e .exact)).unpack) : IsUpTo a x := by
  obtain ⟨least, most⟩ := roundedTo_normal log
  obtain ⟨t, ht⟩ : ∃ t : Nat, (t : Int) = a - e := ⟨((a : Int) - e).toNat, by omega⟩
  have digits : ((a : Int) - e).toNat = t := by omega
  rw [digits] at le
  have width : 52 + k ≤ t := by
    have power : 2 ^ (52 + k) ≤ 2 ^ t :=
      ((Nat.log2_eq_iff (ne_zero_of_log2 log)).mp log).1.trans le
    exact (Nat.pow_le_pow_iff_right one_lt_two).mp power
  obtain ⟨j, rfl⟩ : ∃ j, t = j + k := ⟨t - k, by omega⟩
  have rounded := roundedTo_le le
  rw [roundWithAccuracy_normal log (by omega)] at hx
  split at hx
  · rename_i carry
    rw [carry] at rounded
    have more : 53 ≤ j := (Nat.pow_le_pow_iff_right one_lt_two).mp rounded
    have normal : IsNormal (2 ^ 52) (e + k + 1) := ⟨Nat.le_refl _, by decide, by omega, by omega⟩
    rw [unpack_pack_normal normal] at hx
    refine ⟨_, _, _, hx, normal.le, normal.lt, by omega, by omega, ?_⟩
    exact Nat.pow_le_pow_right two_pos (by omega)
  · rename_i below
    have normal : IsNormal (roundedTo m k) (e + k) := ⟨least, by omega, by omega, by omega⟩
    rw [unpack_pack_normal normal] at hx
    refine ⟨_, _, _, hx, normal.le, normal.lt, by omega, by omega, ?_⟩
    have exponent : ((a : Int) - (e + k)).toNat = j := by omega
    rwa [exponent]

/-- A product has at most the bits of its factors together. -/
theorem IsUpTo.mul (hx : IsUpTo a x) (hy : IsUpTo b y) (range : a + b ≤ 1023) :
    IsUpTo (a + b) (x * y) := by
  obtain ⟨m, e, pos, formX, leX, ltX, lowX, highX, boundX⟩ := hx
  obtain ⟨m', e', pos', formY, leY, ltY, lowY, highY, boundY⟩ := hy
  have nonzero : m * m' ≠ 0 := (Nat.mul_pos pos pos').ne'
  have least : 2 ^ (52 + 52) ≤ m * m' := Nat.pow_add 2 52 52 ▸ Nat.mul_le_mul leX leY
  have log : 52 + 52 ≤ (m * m').log2 := (Nat.le_log2 nonzero).mpr least
  obtain ⟨k, hk⟩ : ∃ k, (m * m').log2 = 52 + k := ⟨(m * m').log2 - 52, by omega⟩
  have exponents : (((a + b : Nat) : Int) - (e + e')).toNat =
      ((a : Int) - e).toNat + ((b : Int) - e').toNat := by omega
  refine isUpTo_round (e := e + e') hk (by omega) (by omega) ?_ range ?_
  · rw [exponents, Nat.pow_add]
    exact Nat.mul_le_mul boundX boundY
  · rw [unpack_mul, formX, formY]
    rfl

/-- A wide natural number is rounded once. -/
theorem toModel_ofNat_of_le (le : 2 ^ 53 ≤ n) : (Float.ofNat n).toModel = Float.Model.pack
    (UnpackedFloat.roundWithAccuracy .binary64 .positive (n * 2 ^ 53) (-53) .exact) := by
  have wide : Float.ofNat n = ⟨Float.Model.ofScientific n 0⟩ := by
    have slow : ¬(n < 2 ^ 53 ∧ 0 ≤ 22) := fun h => absurd h.1 (Nat.not_lt.mpr le)
    exact dif_neg slow
  have product : n <<< (1 + 52) * 10 ^ (0 : Int).toNat = n * 2 ^ 53 := by
    rw [Int.toNat_zero, Nat.pow_zero, Nat.mul_one, Nat.shiftLeft_eq]
  have high : ¬(0 : Int) > 2 ^ 11 := by decide
  have low : ¬(0 : Int) < -(2 ^ 11 + n.log2) := by omega
  rw [wide]
  show Float.Model.pack (UnpackedFloat.ofScientific .binary64 n 0) = _
  rw [UnpackedFloat.ofScientific, dif_neg (by omega), if_neg high, if_neg low,
    if_pos (Int.le_refl 0), UnpackedFloat.mul]
  simp only [Float.Model.Format.mantissaBits]
  rw [product]
  rfl

/-- A natural number is converted to one of at most its bits. -/
theorem isUpTo_ofNat (pos : 0 < n) (lt : n < 2 ^ a) (range : a ≤ 1023) :
    IsUpTo a (Float.ofNat n) := by
  by_cases small : n < 2 ^ 53
  · have normal := isNormal_whole pos small
    have form : (Float.ofNat n).toModel.unpack = wholeForm .positive n pos := by
      rw [unpack_ofNat small, intForm, dif_neg (by omega), if_neg (by omega)]
      rfl
    refine ⟨_, _, _, form, normal.le, normal.lt, ?_, by omega, ?_⟩
    · unfold freePlaces
      omega
    · have exponent : ((a : Int) - -freePlaces n).toNat = a + freePlaces n := by omega
      rw [exponent, Nat.pow_add]
      exact Nat.mul_le_mul_right _ lt.le
  · have log : 53 ≤ n.log2 := (Nat.le_log2 (by omega)).mpr (by omega)
    have shifted : (n * 2 ^ 53).log2 = 52 + (n.log2 + 1) := by
      rw [log2_mul_two_pow pos]
      omega
    have exponent : ((a : Int) - (-53)).toNat = a + 53 := by omega
    refine isUpTo_round (e := -53) shifted (by omega) (by omega) ?_ range ?_
    · rw [exponent, Nat.pow_add]
      exact Nat.mul_le_mul_right _ lt.le
    · rw [toModel_ofNat_of_le (Nat.not_lt.mp small)]

end CipherFlow
