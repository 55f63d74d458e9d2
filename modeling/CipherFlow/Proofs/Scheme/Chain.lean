import CipherFlow.Primitives.Standard
import CipherFlow.Proofs.Arith.LargestPrimes
import CipherFlow.Proofs.Ring.Image
import CipherFlow.Scheme.Context

/-!
# Modulus chains

What is known of the bases of a context: the degree is at least four, and the
primes of the chain are distinct odd primes. The basis of a level is an
initial part of the basis of the top level.

`Context.sound_of_ofParams` has what is known of a context once for all; everything
that is said of levels in this library goes back to it.
-/

namespace CipherFlow

open CipherFlow.Ring (Basis Poly)

/-! ## Chain primes -/

/-- Chain primes are odd: they leave the remainder 1 modulo twice the degree. -/
theorem Prime.odd_of_listBelow {bits count degree : Nat} {exclude primes : List Nat}
    (h : Prime.listBelow bits count degree exclude = .ok primes) :
    ∀ p ∈ primes, p % 2 = 1 := by
  intro p hp
  have residue : p % (2 * degree) = 1 := ((areLargest_of_listBelow h).holds p hp).1.residue
  rw [← Nat.mod_mul_right_mod p 2 degree, residue]

theorem Prime.one_lt_of_isPrime {p : Nat} (h : Prime.isPrime p = true) : 1 < p := by
  unfold Prime.isPrime at h
  split at h
  · exact nomatch h
  · omega

theorem Prime.odd_of_isPrime {p : Nat} (h : Prime.isPrime p = true) (le : 4 ≤ p) :
    p % 2 = 1 := by
  unfold Prime.isPrime at h
  rw [if_neg (by omega), if_neg (by omega)] at h
  split at h
  · exact nomatch h
  · omega

/-! ## Bases -/

theorem Ring.Basis.of_firstUnusable {seen primes : List Nat}
    (h : Basis.firstUnusable seen primes = none) :
    (∀ p ∈ primes, Prime.isPrime p = true ∧ p < Basis.primeBound ∧ p ∉ seen) ∧ primes.Nodup := by
  induction primes generalizing seen with
  | nil => simp
  | cons p primes ih =>
    rw [Basis.firstUnusable] at h
    split at h
    · rename_i usable
      simp only [Bool.and_eq_true, decide_eq_true_eq, Bool.not_eq_true', List.contains_eq_mem,
        decide_eq_false_iff_not] at usable
      obtain ⟨⟨prime, bound⟩, new⟩ := usable
      obtain ⟨rest, nodup⟩ := ih h
      refine ⟨fun r hr => ?_, List.nodup_cons.mpr ⟨fun mem => ?_, nodup⟩⟩
      · rcases List.mem_cons.mp hr with rfl | hr
        · exact ⟨prime, bound, new⟩
        · obtain ⟨prime, bound, notSeen⟩ := rest r hr
          exact ⟨prime, bound, fun mem => notSeen (List.mem_cons_of_mem _ mem)⟩
      · exact (rest p mem).2.2 List.mem_cons_self
    · exact nomatch h

/-- What a basis is made of, and that it is valid. -/
theorem Ring.Basis.valid_of_ofPrimes {degree : Nat} {primes : List Nat} {b : Basis}
    (h : Basis.ofPrimes degree primes = .ok b) : b = ⟨degree, primes⟩ ∧ b.Valid := by
  unfold Basis.ofPrimes at h
  by_cases pow : Basis.isDegree degree = true
  · rw [pow, Bool.not_true, if_neg Bool.false_ne_true] at h
    split at h
    · exact nomatch h
    · rename_i nonempty
      split at h
      · exact nomatch h
      · rename_i usable
        obtain rfl := Except.ok.inj h
        obtain ⟨each, nodup⟩ := Basis.of_firstUnusable usable
        simp only [Basis.isDegree, Bool.and_eq_true, decide_eq_true_eq, beq_iff_eq] at pow
        exact ⟨rfl, pow.2, pow.1, fun eq => nonempty (List.isEmpty_iff.mpr eq),
          fun p hp => (each p hp).1,
          fun p hp => (each p hp).2.1, nodup⟩
  · rw [Bool.not_eq_true] at pow
    rw [pow] at h
    exact nomatch h

variable {B : Basis}

theorem Ring.Basis.Valid.degree_ne (h : B.Valid) : B.degree ≠ 0 := by
  have four : 4 ≤ B.degree := h.four_le_degree
  omega

theorem Ring.Basis.Valid.one_lt (h : B.Valid) : ∀ q ∈ B.primes, 1 < q :=
  fun q hq => Prime.one_lt_of_isPrime (h.isPrime q hq)

theorem Ring.Basis.Valid.pos (h : B.Valid) : ∀ q ∈ B.primes, 0 < q :=
  fun q hq => Nat.zero_lt_of_lt (h.one_lt q hq)

theorem Ring.Basis.isInitialOf_self (b : Basis) : b.isInitialOf b = true := by
  simp [Basis.isInitialOf]

/-- The basis of the first primes of a valid one is valid. -/
theorem Ring.Basis.Valid.initial (h : B.Valid) {b : Basis} (small : b.isInitialOf B = true)
    (nonempty : b.primes ≠ []) : b.Valid := by
  simp only [Basis.isInitialOf, Bool.and_eq_true, beq_iff_eq, List.isPrefixOf_iff_prefix] at small
  obtain ⟨degree, initial⟩ := small
  have mem : ∀ q ∈ b.primes, q ∈ B.primes := fun q hq => initial.subset hq
  exact {
    degree_pow := by rw [degree]; exact h.degree_pow
    four_le_degree := by rw [degree]; exact h.four_le_degree
    primes_ne_nil := nonempty
    isPrime := fun q hq => h.isPrime q (mem q hq)
    lt_bound := fun q hq => h.lt_bound q (mem q hq)
    nodup := h.nodup.sublist initial.sublist }

/-! ## Contexts -/

theorem Params.weight_le {p : Params} (h : p.problem? = none) :
    p.hammingWeight ≤ p.ringDegree := by
  unfold problem? at h
  repeat
    split at h
    · exact nomatch h
  rename_i weight
  omega

/-- What holds of every context: its top basis is valid, its primes are odd,
and no more coefficients are asked to be nonzero than there are. -/
structure Context.Sound (ctx : Context) : Prop where
  valid : ctx.topBasis.Valid
  odd : ∀ q ∈ ctx.primes, q % 2 = 1
  weight : ctx.params.hammingWeight ≤ ctx.degree

/-- What is found on the way to a context. -/
theorem Context.ofParams_eq_ok_iff [primitives : Primitives] {params : Params} {ctx : Context} :
    Context.ofParams params = .ok ctx ↔ params.problem? = none ∧ ∃ base rescaling e,
      Prime.listBelow params.baseBits 1 params.ringDegree [] = .ok base ∧
      Prime.listBelow params.scaleBits params.levels params.ringDegree base = .ok rescaling ∧
      Basis.ofPrimes params.ringDegree (base ++ rescaling) =
        .ok ⟨params.ringDegree, base ++ rescaling⟩ ∧
      Slots.Embedding.ofDegree params.ringDegree = .ok e ∧
      ctx = ⟨params, base ++ rescaling, primitives⟩ := by
  constructor
  · intro h
    unfold Context.ofParams at h
    obtain ⟨checked, hchecked, h⟩ := exists_of_bind_eq_ok h
    obtain ⟨base, hbase, h⟩ := exists_of_bind_eq_ok h
    obtain ⟨rescaling, hrescaling, h⟩ := exists_of_bind_eq_ok h
    obtain ⟨basis, hbasis, h⟩ := exists_of_bind_eq_ok h
    obtain ⟨e, he, h⟩ := exists_of_bind_eq_ok h
    unfold Scheme.checkParams at hchecked
    split at hchecked
    · exact nomatch hchecked
    · rename_i accepted
      obtain rfl := Except.ok.inj hchecked
      have found := eq_ok_of_mapError hbasis
      obtain ⟨rfl, -⟩ := Ring.Basis.valid_of_ofPrimes found
      exact ⟨accepted, base, rescaling, e, eq_ok_of_mapError hbase, eq_ok_of_mapError hrescaling,
        found, eq_ok_of_mapError he, (Except.ok.inj h).symm⟩
  · rintro ⟨accepted, base, rescaling, e, hbase, hrescaling, hbasis, he, rfl⟩
    -- Each step of the program is given its result.
    have checked : Scheme.checkParams params = .ok params := by
      rw [Scheme.checkParams, accepted]
    rw [Context.ofParams, checked]
    show ((Prime.listBelow params.baseBits 1 params.ringDegree []).mapError
      Scheme.Error.prime >>= _) = _
    rw [hbase]
    show ((Prime.listBelow params.scaleBits params.levels params.ringDegree base).mapError
      Scheme.Error.prime >>= _) = _
    rw [hrescaling]
    show ((Basis.ofPrimes params.ringDegree (base ++ rescaling)).mapError
      Scheme.Error.ring >>= _) = _
    rw [hbasis]
    show ((Slots.Embedding.ofDegree params.ringDegree).mapError Scheme.Error.encoding >>= _) = _
    rw [he]
    rfl

theorem Context.sound_of_ofParams [Primitives] {params : Params} {ctx : Context}
    (h : Context.ofParams params = .ok ctx) : ctx.Sound := by
  obtain ⟨accepted, base, rescaling, e, hbase, hrescaling, hbasis, -, rfl⟩ :=
    Context.ofParams_eq_ok_iff.mp h
  refine ⟨(Ring.Basis.valid_of_ofPrimes hbasis).2, fun q hq => ?_, Params.weight_le accepted⟩
  rcases List.mem_append.mp hq with hq | hq
  · exact Prime.odd_of_listBelow hbase q hq
  · exact Prime.odd_of_listBelow hrescaling q hq

variable {ctx : Context} {level : Nat}

/-- The basis of a level is an initial part of the top basis. -/
theorem Context.isInitialOf_topBasis (ctx : Context) (level : Nat) :
    (ctx.basisAt level).isInitialOf ctx.topBasis = true := by
  simp [Basis.isInitialOf, Context.basisAt, Context.topBasis, List.take_prefix]

/-- The basis of a lower level consists of the first primes of a higher one. -/
theorem Context.isInitialOf_basisAt (ctx : Context) {low high : Nat} (le : low ≤ high) :
    (ctx.basisAt low).isInitialOf (ctx.basisAt high) = true := by
  simp only [Basis.isInitialOf, Context.basisAt, beq_self_eq_true, Bool.true_and,
    List.isPrefixOf_iff_prefix]
  exact List.take_prefix_take_left (by omega)

theorem Context.Sound.valid_basisAt (h : ctx.Sound) (level : Nat) :
    (ctx.basisAt level).Valid := by
  refine h.valid.initial (ctx.isInitialOf_topBasis level) fun nil => ?_
  rcases List.take_eq_nil_iff.mp nil with zero | nil
  · exact absurd zero (Nat.succ_ne_zero level)
  · exact h.valid.primes_ne_nil nil

theorem Context.basis_ok (h : level < ctx.primes.length) :
    ctx.basis level = .ok (ctx.basisAt level) :=
  if_pos h

theorem Context.eq_basisAt_of_basis {b : Basis} (h : ctx.basis level = .ok b) :
    b = ctx.basisAt level := by
  unfold basis at h
  split at h
  · exact (Except.ok.inj h).symm
  · exact nomatch h

theorem Context.length_basisAt (h : level < ctx.primes.length) :
    (ctx.basisAt level).primes.length = level + 1 :=
  List.length_take_of_le h

theorem Context.Sound.isOver_ofInts (h : ctx.Sound) (level : Nat) {c : List Int}
    (length : c.length = ctx.degree) :
    (Poly.ofInts (ctx.basisAt level) c).IsOver (ctx.basisAt level) :=
  Ring.isOver_ofInts (h.valid_basisAt level).pos length

/-! ## A small context -/

/-- The standard primitives with a coarser generator: whole numbers from -1 to 1 stand
for normally distributed ones, so that keys and ciphertexts can be computed in proofs. -/
@[reducible] def Primitives.coarse : Primitives :=
  { Primitives.standard with outcomes := fun seed =>
      { Coins.seeded seed with normals := fun i => Float.ofInt (Coins.word seed i % 3 - 1) } }

attribute [local instance] Primitives.coarse

/-- A context of degree four with two primes. -/
def Context.tiny : Context :=
  ⟨⟨4, 9, 8, 1, .ofFloat 1, 2⟩, [457, 241], .coarse⟩

theorem Context.ofParams_tiny : Context.ofParams tiny.params = .ok tiny := by
  rfl

theorem Context.sound_tiny : tiny.Sound :=
  sound_of_ofParams ofParams_tiny

end CipherFlow
