import CipherFlow.Proofs.Number.Magnitude
import CipherFlow.Proofs.Ring.ReadBack
import CipherFlow.Proofs.Scheme.Sizes

/-!
# Levels that can be read back

What is encoded at a level can be read back exactly if the floating-point
weights of its places are finite. The weights are products of all primes of the
level but the last, so they are finite if these have few enough bits together.
A chain of the largest primes has levels where they are not.

`Context.readBack_exact_iff` is the statement for the levels of any accepted chain,
and `Context.readBack_long` a level that cannot be read back.

How the proof goes. A weight is a product of primes in floating point; the bits of
the primes add up to a bound for it (`isFinite_floatWeights`). With finite weights
reading back is exact by `CipherFlow.Proofs.Ring.ReadBack`; with an infinite one the
digit zero gives not-a-number, whatever the coefficient is.
-/

namespace CipherFlow

open CipherFlow.Ring (Basis Poly floatWeights)

/-! ## Finite weights -/

theorem isUpTo_one : IsUpTo 0 1 :=
  ⟨2 ^ 52, -52, by decide, by rfl, by decide, by decide, by decide, by decide, by decide⟩

/-- Each place but the last adds the bits of its prime to the weights. -/
theorem isFinite_floatWeights {a bits : Nat} {w : Float} {primes : List Nat}
    (hw : IsUpTo a w) (small : ∀ q ∈ primes, 0 < q ∧ q < 2 ^ bits)
    (range : a + (primes.length - 1) * bits ≤ 1023) :
    ∀ w' ∈ floatWeights w primes, Binary64.isFinite w' = true := by
  induction primes generalizing a w with
  | nil => exact fun w' hw' => (nomatch hw')
  | cons q primes ih =>
    refine List.forall_mem_cons.mpr ⟨hw.isFinite, ?_⟩
    cases primes with
    | nil => exact fun w' hw' => (nomatch hw')
    | cons q' primes =>
      obtain ⟨⟨pos, lt⟩, others⟩ := List.forall_mem_cons.mp small
      have count : (q :: q' :: primes).length - 1 = ((q' :: primes).length - 1) + 1 := rfl
      rw [count, Nat.add_mul, Nat.one_mul, Nat.add_comm _ bits, ← Nat.add_assoc] at range
      have product : IsUpTo (a + bits) (w * Float.ofNat q) :=
        hw.mul (isUpTo_ofNat pos lt (by omega)) (by omega)
      exact ih product others range

/-- The weights of a level are finite if the bits of its primes but the last
are fewer than the largest exponent. -/
theorem Context.isFinite_floatWeights {ctx : Context} (sized : ctx.Sized) (sound : ctx.Sound)
    {level : Nat}
    (range : ctx.params.baseBits + (level - 1) * ctx.params.scaleBits ≤ 1023) :
    ∀ w ∈ floatWeights 1 (ctx.basisAt level).primes, Binary64.isFinite w = true := by
  obtain ⟨base, rescaling, eq, below, -, small⟩ := sized.chain
  have pos : ∀ q ∈ base :: rescaling, 0 < q := by
    rw [← eq]
    exact sound.valid.pos
  have primes : (ctx.basisAt level).primes = base :: rescaling.take level := by
    rw [Context.basisAt, eq]
    rfl
  rw [primes]
  have first : IsUpTo ctx.params.baseBits (1 * Float.ofNat base) := by
    have product := isUpTo_one.mul
      (isUpTo_ofNat (pos base List.mem_cons_self) below (by omega)) (by omega)
    rwa [Nat.zero_add] at product
  refine List.forall_mem_cons.mpr ⟨isUpTo_one.isFinite, ?_⟩
  have each : ∀ q ∈ rescaling.take level, 0 < q ∧ q < 2 ^ ctx.params.scaleBits := by
    intro q hq
    have mem := List.mem_of_mem_take hq
    exact ⟨pos q (List.mem_cons_of_mem _ mem), small q mem⟩
  have count : (rescaling.take level).length ≤ level := List.length_take_le _ _
  have scaled : ((rescaling.take level).length - 1) * ctx.params.scaleBits ≤
      (level - 1) * ctx.params.scaleBits := Nat.mul_le_mul_right _ (by omega)
  exact CipherFlow.isFinite_floatWeights first each (by omega)

/-! ## Reading back -/

/-- At a level of an accepted chain of primes, all coefficients below `2 ^ 50`
that fit the level are read back exactly if and only if the weights are finite,
and they are if the primes but the last have at most 1023 bits together. -/
theorem Context.readBack_exact_iff [Primitives] {params : Params} {ctx : Context} {level : Nat}
    {b : Basis}
    (ofParams : Context.ofParams params = .ok ctx) (prime : ∀ q ∈ ctx.primes, q.Prime)
    (hb : ctx.basis level = .ok b) :
    ((∀ c : List Int, c.length = b.degree →
      (∀ v ∈ c, v.natAbs < 2 ^ 50 ∧ v.natAbs ≤ (b.primes.prod - 1) / 2) →
        (Poly.ofInts b c).toFloats = c.map Float.ofInt) ↔
      ∀ w ∈ floatWeights 1 b.primes, Binary64.isFinite w = true) ∧
    (ctx.params.baseBits + (level - 1) * ctx.params.scaleBits ≤ 1023 →
      ∀ w ∈ floatWeights 1 b.primes, Binary64.isFinite w = true) := by
  have sound := Context.sound_of_ofParams ofParams
  have sized := Context.sized_of_ofParams ofParams
  have own : b = ctx.basisAt level := by
    unfold Context.basis at hb
    split at hb
    · exact (Except.ok.inj hb).symm
    · exact nomatch hb
  subst own
  refine ⟨Ring.toFloats_exact_iff (sound.valid_basisAt level)
    (fun q hq => prime q (List.mem_of_mem_take hq))
    (fun q hq => sound.odd q (List.mem_of_mem_take hq)), ?_⟩
  exact Context.isFinite_floatWeights sized sound

attribute [local instance] Primitives.coarse

/-- All levels of the tiny chain can be read back. -/
theorem Context.readBack_exact_tiny :
    Context.ofParams Context.tiny.params = .ok Context.tiny ∧
      (∀ q ∈ Context.tiny.primes, q.Prime) ∧
      Context.tiny.basis 1 = .ok (Context.tiny.basisAt 1) ∧
      ∀ c : List Int, c.length = 4 →
        (∀ v ∈ c, v.natAbs < 2 ^ 50 ∧ v.natAbs ≤ (457 * 241 - 1) / 2) →
          (Poly.ofInts (Context.tiny.basisAt 1) c).toFloats = c.map Float.ofInt := by
  have prime : ∀ q ∈ Context.tiny.primes, q.Prime := by
    have base : Nat.Prime 457 := by norm_num
    have rescaling : Nat.Prime 241 := by norm_num
    exact List.forall_mem_cons.mpr ⟨base, List.forall_mem_singleton.mpr rescaling⟩
  obtain ⟨exact, finite⟩ := Context.readBack_exact_iff Context.ofParams_tiny prime
    (rfl : Context.tiny.basis 1 = .ok (Context.tiny.basisAt 1))
  exact ⟨Context.ofParams_tiny, prime, rfl, exact.mpr (finite (by decide))⟩

/-- The largest rescaling primes of fifty-nine bits for degree four. -/
def longRescaling : List Nat :=
  [576460752303423433, 576460752303422881, 576460752303422801, 576460752303422617,
    576460752303422369, 576460752303422281, 576460752303422249, 576460752303422153,
    576460752303421961, 576460752303421897, 576460752303421649, 576460752303421577,
    576460752303421529, 576460752303421441, 576460752303421393, 576460752303421217,
    576460752303421169, 576460752303421121]

/-- A context with as many primes as make the last weight overflow. -/
def Context.long : Context :=
  ⟨⟨4, 60, 59, 18, .ofFloat 1, 2⟩, [1152921504606846697] ++ longRescaling, .coarse⟩

theorem Context.ofParams_long : Context.ofParams Context.long.params = .ok Context.long := by
  have accepted : Context.long.params.problem? = none :=
    Option.isNone_iff_eq_none.mp (by decide +kernel)
  have base : Prime.listBelow 60 1 4 [] = .ok [1152921504606846697] :=
    eq_ok_of_toOption (by decide +kernel)
  have rescaling : Prime.listBelow 59 18 4 [1152921504606846697] = .ok longRescaling :=
    eq_ok_of_toOption (by decide +kernel)
  have basis : Basis.ofPrimes 4 ([1152921504606846697] ++ longRescaling) =
      .ok ⟨4, [1152921504606846697] ++ longRescaling⟩ :=
    eq_ok_of_toOption (by decide +kernel)
  exact Context.ofParams_eq_ok_iff.mpr
    ⟨accepted, [1152921504606846697], longRescaling, ⟨4, Fourier.halving⟩, base, rescaling, basis,
      rfl, rfl⟩

/-- Nothing can be read back at its top: the coefficient one comes out as
not-a-number. -/
theorem Context.readBack_long :
    Context.ofParams Context.long.params = .ok Context.long ∧
      Context.long.basis 18 = .ok (Context.long.basisAt 18) ∧
      (∀ v ∈ ([1, 0, 0, 0] : List Int), v.natAbs < 2 ^ 50 ∧
        v.natAbs ≤ ((Context.long.basisAt 18).primes.prod - 1) / 2) ∧
      (Poly.ofInts (Context.long.basisAt 18) [1, 0, 0, 0]).toFloats ≠
        ([1, 0, 0, 0] : List Int).map Float.ofInt := by
  refine ⟨Context.ofParams_long, rfl, by decide, ?_⟩
  intro same
  have isNaN := congrArg (List.map Float.isNaN) same
  revert isNaN
  decide +kernel

end CipherFlow
