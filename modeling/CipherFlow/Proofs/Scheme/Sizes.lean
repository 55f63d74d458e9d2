import CipherFlow.Proofs.Scheme.Chain

/-!
# Sizes in a modulus chain

The bits that parameters ask for bound the primes of the chain, and the levels
they ask for are the levels the chain has. So all numbers that describe a
context fit a machine word.
-/

namespace CipherFlow

open CipherFlow.Ring (Basis)

/-! ## Lists of chain primes -/

/-- There are as many primes as asked for, below the power of two. -/
theorem Prime.lt_of_mem_listBelow {bits count degree : Nat} {exclude primes : List Nat}
    (h : Prime.listBelow bits count degree exclude = .ok primes) :
    primes.length = count ∧ ∀ p ∈ primes, p < 2 ^ bits := by
  have largest := areLargest_of_listBelow h
  exact ⟨largest.length, fun p hp => (largest.holds p hp).1.lt⟩

/-! ## Contexts -/

/-- The bounds that accepted parameters keep. -/
structure Params.Bounded (p : Params) : Prop where
  degree : p.ringDegree ≤ 2 ^ 15
  levels : p.levels ≤ 32
  bits : p.scaleBits < p.baseBits ∧ p.baseBits ≤ 60

theorem Params.bounded {p : Params} (h : p.problem? = none) : p.Bounded := by
  unfold problem? at h
  split at h
  · exact nomatch h
  rename_i degree
  split at h
  · exact nomatch h
  rename_i levels
  split at h
  · exact nomatch h
  split at h
  · exact nomatch h
  rename_i bits
  refine ⟨?_, Nat.not_lt.mp levels, by omega⟩
  exact Nat.not_lt.mp fun large => degree (.inr (.inr large))

/-- The chain of a context: a base prime and rescaling primes, within the bits
of the parameters. -/
structure Context.Sized (ctx : Context) : Prop where
  params : ctx.params.Bounded
  chain : ∃ base rescaling, ctx.primes = base :: rescaling ∧ base < 2 ^ ctx.params.baseBits ∧
    rescaling.length = ctx.params.levels ∧ ∀ q ∈ rescaling, q < 2 ^ ctx.params.scaleBits

theorem Context.sized_of_ofParams [Primitives] {params : Params} {ctx : Context}
    (h : Context.ofParams params = .ok ctx) : ctx.Sized := by
  obtain ⟨accepted, base, rescaling, e, hbase, hrescaling, -, -, rfl⟩ :=
    Context.ofParams_eq_ok_iff.mp h
  obtain ⟨one, below⟩ := Prime.lt_of_mem_listBelow hbase
  obtain ⟨q, rfl⟩ := List.length_eq_one_iff.mp one
  obtain ⟨length, small⟩ := Prime.lt_of_mem_listBelow hrescaling
  exact ⟨Params.bounded accepted, q, rescaling, rfl, below q List.mem_cons_self, length, small⟩

variable {ctx : Context}

/-- The chain has one prime more than there are levels to rescale. -/
theorem Context.Sized.length_primes (h : ctx.Sized) :
    ctx.primes.length = ctx.params.levels + 1 := by
  obtain ⟨base, rescaling, eq, -, length, -⟩ := h.chain
  rw [eq, List.length_cons, length]

/-- All chain primes are below `2 ^ 60`. -/
theorem Context.Sized.prime_lt (h : ctx.Sized) : ∀ q ∈ ctx.primes, q < 2 ^ 60 := by
  have bits : ctx.params.scaleBits < ctx.params.baseBits ∧ ctx.params.baseBits ≤ 60 := h.params.bits
  obtain ⟨base, rescaling, eq, first, -, others⟩ := h.chain
  rw [eq]
  refine List.forall_mem_cons.mpr ⟨?_, fun q hq => ?_⟩
  · exact first.trans_le (Nat.pow_le_pow_right two_pos bits.2)
  · exact (others q hq).trans_le (Nat.pow_le_pow_right two_pos (bits.1.le.trans bits.2))

end CipherFlow
