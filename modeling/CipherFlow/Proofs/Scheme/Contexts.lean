import CipherFlow.Proofs.Arith.LargestPrimes
import CipherFlow.Proofs.Scheme.Sizes

/-!
# The contexts that parameters give

Parameters that meet their conditions give a context unless one of the two
searches for primes runs out: whatever the searches find, the chain made of it
is accepted, as the rescaling primes exclude the base prime and no prime of at
most 60 bits is too large. The chain is then the one asked for.

`Context.ofParams_answers` lists the answers, each with the parameters that have it.

How the proof goes. That the searches find the largest primes is known from
`CipherFlow.Proofs.Arith.LargestPrimes`. Of what they find nothing is used but that
the numbers are distinct odd primes of the right residue and of at most 60 bits: no
check of a basis fails on these (`Ring.Basis.ofPrimes_eq_ok`). Each level keeps an
initial part of the chain. Its identifier stands for the lowest level that has it,
whatever the digest tells apart (`Context.levelOf_eq_some`).
-/

namespace CipherFlow

open CipherFlow.Ring (Basis)

/-! ## Bases of usable primes

A basis is refused for the first of its numbers that is not prime, too large, or
there already. -/

theorem Ring.Basis.firstUnusable_eq_none {seen primes : List Nat}
    (each : ∀ p ∈ primes, Prime.isPrime p = true ∧ p < Basis.primeBound ∧ p ∉ seen)
    (nodup : primes.Nodup) : Basis.firstUnusable seen primes = none := by
  induction primes generalizing seen with
  | nil => rfl
  | cons p primes ih =>
    obtain ⟨prime, bound, new⟩ := each p List.mem_cons_self
    obtain ⟨fresh, nodup⟩ := List.nodup_cons.mp nodup
    rw [Basis.firstUnusable, if_pos (by simp [prime, bound, new])]
    refine ih (fun q hq => ?_) nodup
    obtain ⟨prime, bound, old⟩ := each q (List.mem_cons_of_mem _ hq)
    have other : q ≠ p := fun eq => fresh (eq ▸ hq)
    exact ⟨prime, bound, by simp [old, other]⟩

/-- Distinct primes that are small enough make a basis. -/
theorem Ring.Basis.ofPrimes_eq_ok {degree : Nat} {primes : List Nat}
    (isDegree : Basis.isDegree degree = true) (nonempty : primes ≠ [])
    (each : ∀ p ∈ primes, Prime.isPrime p = true ∧ p < Basis.primeBound)
    (nodup : primes.Nodup) : Basis.ofPrimes degree primes = .ok ⟨degree, primes⟩ := by
  have usable : Basis.firstUnusable [] primes = none :=
    Basis.firstUnusable_eq_none (by simpa using each) nodup
  simp [Basis.ofPrimes, isDegree, nonempty, usable]

/-! ## Accepted parameters -/

/-- What is known of parameters that meet their conditions. -/
structure Params.Accepted (p : Params) : Prop extends Params.Bounded p where
  isDegree : Basis.isDegree p.ringDegree = true
  eight_le : 8 ≤ p.scaleBits

theorem Params.accepted {p : Params} (h : p.problem? = none) : p.Accepted := by
  refine ⟨Params.bounded h, ?_, ?_⟩
  all_goals
    unfold problem? at h
    split at h
    · exact nomatch h
    rename_i degree
    split at h
    · exact nomatch h
    split at h
    · exact nomatch h
    rename_i bits
  · simp only [Basis.isDegree, Bool.and_eq_true, decide_eq_true_eq, beq_iff_eq]
    constructor
    · exact Nat.not_lt.mp fun small => degree (.inr (.inl small))
    · exact Decidable.not_not.mp fun other => degree (.inl other)
  · omega

namespace Params.Accepted

variable {p : Params} {base rescaling : List Nat}

theorem four_le (h : p.Accepted) : 4 ≤ p.ringDegree := by
  have isDegree := h.isDegree
  simp only [Basis.isDegree, Bool.and_eq_true, decide_eq_true_eq] at isDegree
  exact isDegree.1

theorem embedding_ok [Primitives] (h : p.Accepted) :
    ∃ e, Slots.Embedding.ofDegree p.ringDegree = .ok e := by
  have isDegree := h.isDegree
  simp only [Basis.isDegree, Bool.and_eq_true, decide_eq_true_eq, beq_iff_eq] at isDegree
  have small : p.ringDegree ≤ 2 ^ 15 := h.degree
  have supported : ¬ (p.ringDegree < 4 ∨ p.ringDegree ≠ Nat.pow 2 p.ringDegree.log2) := by
    rintro (low | other)
    · omega
    · exact other isDegree.2
  have double : 2 * p.ringDegree < wordSize := by
    have bound : 2 * 2 ^ 15 < wordSize := by decide
    omega
  have half : 8 * (p.ringDegree / 2) < Nat.pow 2 63 := by
    have bound : 8 * 2 ^ 15 < Nat.pow 2 63 := by decide
    omega
  refine ⟨⟨p.ringDegree, Primitives.transforms⟩, ?_⟩
  rw [Slots.Embedding.ofDegree, if_neg supported, Fault.checkSize, if_pos double, Fault.reserve,
    if_pos half]
  rfl

/-- Both searches are made within the supported range. -/
theorem listsLargest (h : p.Accepted) {bits count : Nat} (low : 8 ≤ bits) (high : bits ≤ 60)
    (few : count ≤ 32) (exclude : List Nat) :
    Prime.ListsLargest bits count p.ringDegree exclude := by
  have four := h.four_le
  have small : p.ringDegree ≤ 2 ^ 15 := h.degree
  refine Prime.listsLargest (by omega) (by omega) (by omega) ?_ ?_ exclude
  · have bound : 2 ^ 15 < Nat.pow 2 62 := by decide
    omega
  · have bound : 8 * 32 < Nat.pow 2 63 := by decide
    omega

theorem listsBase (h : p.Accepted) : Prime.ListsLargest p.baseBits 1 p.ringDegree [] := by
  have eight := h.eight_le
  have bits := h.bits
  exact h.listsLargest (by omega) bits.2 (by omega) []

theorem listsRescaling (h : p.Accepted) (base : List Nat) :
    Prime.ListsLargest p.scaleBits p.levels p.ringDegree base := by
  have bits := h.bits
  exact h.listsLargest h.eight_le (by omega) h.levels base

end Params.Accepted

/-! ## Chains

The base prime comes first, the rescaling primes after it. They are distinct, since
the second search leaves out what the first has found. -/

/-- What the two searches find for accepted parameters. -/
structure Params.Chain (p : Params) (base rescaling : List Nat) : Prop where
  first : Prime.AreLargest
    (fun q => Prime.IsChain (Nat.pow 2 p.baseBits) p.ringDegree q ∧ q ∉ []) 1 base
  others : Prime.AreLargest
    (fun q => Prime.IsChain (Nat.pow 2 p.scaleBits) p.ringDegree q ∧ q ∉ base) p.levels rescaling

namespace Params.Chain

variable {p : Params} {base rescaling : List Nat} {q : Nat}

theorem mem_base (h : p.Chain base rescaling) (hq : q ∈ base) :
    Prime.IsChain (Nat.pow 2 p.baseBits) p.ringDegree q :=
  (h.first.holds q hq).1

theorem mem_rescaling (h : p.Chain base rescaling) (hq : q ∈ rescaling) :
    Prime.IsChain (Nat.pow 2 p.scaleBits) p.ringDegree q :=
  (h.others.holds q hq).1

theorem isChain (h : p.Chain base rescaling) (accepted : p.Accepted)
    (hq : q ∈ base ++ rescaling) : Prime.IsChain (Nat.pow 2 60) p.ringDegree q := by
  have bits := accepted.bits
  rcases List.mem_append.mp hq with hq | hq
  · obtain ⟨lt, residue, prime⟩ := h.mem_base hq
    exact ⟨lt.trans_le (Nat.pow_le_pow_right two_pos bits.2), residue, prime⟩
  · obtain ⟨lt, residue, prime⟩ := h.mem_rescaling hq
    exact ⟨lt.trans_le (Nat.pow_le_pow_right two_pos (by omega)), residue, prime⟩

theorem nodup (h : p.Chain base rescaling) : (base ++ rescaling).Nodup := by
  refine List.nodup_append'.mpr ⟨h.first.nodup, h.others.nodup, ?_⟩
  exact fun q hq hq' => (h.others.holds q hq').2 hq

theorem ofPrimes (h : p.Chain base rescaling) (accepted : p.Accepted) :
    Basis.ofPrimes p.ringDegree (base ++ rescaling) = .ok ⟨p.ringDegree, base ++ rescaling⟩ := by
  refine Basis.ofPrimes_eq_ok accepted.isDegree ?_ (fun q hq => ?_) h.nodup
  · intro nil
    have length := h.first.length
    rw [(List.append_eq_nil_iff.mp nil).1] at length
    exact nomatch length
  · obtain ⟨lt, -, prime⟩ := h.isChain accepted hq
    exact ⟨prime, lt.trans (by decide)⟩

end Params.Chain

/-! ## Contexts -/

section Answers

variable [primitives : Primitives]

/-- Of what the searches find a context is made. -/
theorem Context.ofParams_eq_ok_of_chain {params : Params} {base rescaling : List Nat}
    (h : params.problem? = none) (chain : params.Chain base rescaling) :
    Context.ofParams params = .ok ⟨params, base ++ rescaling, primitives⟩ := by
  have accepted := Params.accepted h
  obtain ⟨e, he⟩ := accepted.embedding_ok
  exact Context.ofParams_eq_ok_iff.mpr ⟨h, base, rescaling, e,
    (accepted.listsBase.ok base).mpr chain.first,
    (accepted.listsRescaling base |>.ok rescaling).mpr chain.others,
    chain.ofPrimes accepted, he, rfl⟩

theorem Context.ofParams_of_problem {params : Params} {problem : Params.Problem}
    (h : params.problem? = some problem) :
    Context.ofParams params = .error (.invalidParameter problem) := by
  have refused : Scheme.checkParams params = .error (.invalidParameter problem) := by
    rw [Scheme.checkParams, h]
  rw [Context.ofParams, refused]
  rfl

/-- Where a search runs out there is no context. -/
theorem Context.ofParams_of_exhausted {params : Params} (h : params.problem? = none) :
    (∀ e, Prime.listBelow params.baseBits 1 params.ringDegree [] = .error e →
      Context.ofParams params = .error (.prime e)) ∧
    ∀ base e, Prime.listBelow params.baseBits 1 params.ringDegree [] = .ok base →
      Prime.listBelow params.scaleBits params.levels params.ringDegree base = .error e →
      Context.ofParams params = .error (.prime e) := by
  have checked : Scheme.checkParams params = .ok params := by rw [Scheme.checkParams, h]
  constructor
  · intro e he
    rw [Context.ofParams, checked]
    show ((Prime.listBelow params.baseBits 1 params.ringDegree []).mapError Scheme.Error.prime
      >>= _) = _
    rw [he]
    rfl
  · intro base e hbase he
    rw [Context.ofParams, checked]
    show ((Prime.listBelow params.baseBits 1 params.ringDegree []).mapError Scheme.Error.prime
      >>= _) = _
    rw [hbase]
    show ((Prime.listBelow params.scaleBits params.levels params.ringDegree base).mapError
      Scheme.Error.prime >>= _) = _
    rw [he]
    rfl

end Answers

/-- A context has the chain that its parameters ask for: the base prime and as
many rescaling primes as there are levels, each level with its initial part. -/
structure Context.Meets (ctx : Context) (params : Params) : Prop where
  params_eq : ctx.params = params
  topLevel_eq : ctx.topLevel = params.levels
  length : ctx.topBasis.primes.length = ctx.topLevel + 1
  basis_top : ctx.basis ctx.topLevel = .ok ctx.topBasis
  basis_eq : ∀ l ≤ ctx.topLevel,
    ctx.basis l = .ok ⟨params.ringDegree, ctx.topBasis.primes.take (l + 1)⟩
  distinct : ctx.topBasis.primes.Nodup
  prime : ∀ q ∈ ctx.topBasis.primes, Prime.isPrime q = true
  residue : ∀ q ∈ ctx.topBasis.primes, q % (2 * params.ringDegree) = 1
  base_lt : ∀ q, ctx.topBasis.primes[0]? = some q → q < Nat.pow 2 params.baseBits
  falling : (ctx.topBasis.primes.drop 1).Pairwise (· > ·)
  rescaling_lt : ∀ q ∈ ctx.topBasis.primes.drop 1, q < Nat.pow 2 params.scaleBits
  rescaleModulus_eq : ∀ l, 1 ≤ l → l ≤ ctx.topLevel →
    ∃ q, ctx.topBasis.primes[l]? = some q ∧ ctx.rescaleModulus l = some q
  rescaleModulus_none : ∀ l, l = 0 ∨ ctx.topLevel < l → ctx.rescaleModulus l = none
  levelOf_eq : ∀ l id, ctx.levelId l = .ok id → (∀ m < l, ctx.levelId m ≠ .ok id) →
    ctx.levelOf id = some l

theorem Context.levelId_eq_ok {ctx : Context} {l : Nat} {id : LevelId} :
    ctx.levelId l = .ok id ↔ l < ctx.primes.length ∧ ctx.idOf (ctx.basisAt l) = id := by
  by_cases h : l < ctx.primes.length
  · rw [levelId, basis_ok h]
    exact ⟨fun eq => ⟨h, Except.ok.inj eq⟩, fun eq => congrArg _ eq.2⟩
  · rw [levelId, basis, if_neg h]
    exact ⟨nofun, fun eq => absurd eq.1 h⟩

/-- An identifier stands for the lowest level that has it. -/
theorem Context.levelOf_eq_some {ctx : Context} {l : Nat} {id : LevelId}
    (h : ctx.levelId l = .ok id) (first : ∀ m < l, ctx.levelId m ≠ .ok id) :
    ctx.levelOf id = some l := by
  obtain ⟨lt, eq⟩ := levelId_eq_ok.mp h
  rw [levelOf, List.find?_range_eq_some]
  refine ⟨by simpa using eq, by simpa using lt, fun m hm => ?_⟩
  have other : ctx.idOf (ctx.basisAt m) ≠ id := fun same =>
    first m hm (levelId_eq_ok.mpr ⟨hm.trans lt, same⟩)
  simpa using other

theorem Params.Chain.meets {params : Params} {base rescaling : List Nat}
    (h : params.Chain base rescaling) (accepted : params.Accepted) (primitives : Primitives) :
    Context.Meets ⟨params, base ++ rescaling, primitives⟩ params := by
  -- One base prime has been searched for, so the chain is one prime and then the others.
  obtain ⟨q, rfl⟩ := List.length_eq_one_iff.mp h.first.length
  have top : Context.topLevel ⟨params, [q] ++ rescaling, primitives⟩ = params.levels := by
    simp [Context.topLevel, h.others.length]
  have length : ([q] ++ rescaling).length = params.levels + 1 := by
    simp [h.others.length]
  have basis : ∀ l ≤ params.levels, Context.basis ⟨params, [q] ++ rescaling, primitives⟩ l =
      .ok ⟨params.ringDegree, ([q] ++ rescaling).take (l + 1)⟩ := fun l le =>
    Context.basis_ok (length ▸ Nat.lt_succ_of_le le)
  constructor
  case params_eq => rfl
  case topLevel_eq => exact top
  case length => rw [top]; exact length
  case basis_top =>
    rw [top, basis _ (Nat.le_refl _), List.take_of_length_le (Nat.le_of_eq length)]
    rfl
  case basis_eq => rw [top]; exact basis
  case distinct => exact h.nodup
  case prime => exact fun r hr => (h.isChain accepted hr).prime
  case residue => exact fun r hr => (h.isChain accepted hr).residue
  case base_lt =>
    rintro r first
    obtain rfl := Option.some.inj first
    exact (h.mem_base List.mem_cons_self).lt
  case falling => exact h.others.falling
  case rescaling_lt => exact fun r hr => (h.mem_rescaling hr).lt
  case rescaleModulus_eq =>
    intro l pos le
    rw [top] at le
    have lt : l < ([q] ++ rescaling).length := by omega
    refine ⟨_, List.getElem?_eq_getElem lt, ?_⟩
    rw [Context.rescaleModulus, if_neg (by omega)]
    exact List.getElem?_eq_getElem lt
  case rescaleModulus_none =>
    rintro l (rfl | above)
    · rfl
    · rw [top] at above
      have beyond : ([q] ++ rescaling).length ≤ l := by omega
      rw [Context.rescaleModulus, if_neg (by omega)]
      exact List.getElem?_eq_none beyond
  case levelOf_eq => exact fun l id => Context.levelOf_eq_some

/-- Parameters are refused exactly if they fail a condition; else the search
for the base prime or the one for the rescaling primes runs out, or there is a
context, and it has the chain that they ask for. -/
theorem Context.ofParams_answers [primitives : Primitives] (params : Params) :
    (∀ problem, Context.ofParams params = .error (.invalidParameter problem) ↔
      params.problem? = some problem) ∧
    (params.problem? = none →
      Context.ofParams params = .error (.prime (.exhausted params.baseBits 1 params.ringDegree)) ∨
      Context.ofParams params =
        .error (.prime (.exhausted params.scaleBits params.levels params.ringDegree)) ∨
      ∃ ctx, Context.ofParams params = .ok ctx) ∧
    ∀ ctx, Context.ofParams params = .ok ctx → ctx.Meets params := by
  cases conditions : params.problem? with
  | some problem =>
    have refused := Context.ofParams_of_problem conditions
    refine ⟨fun problem' => ?_, nofun, fun ctx made => ?_⟩
    · rw [refused]
      simp
    · rw [refused] at made
      exact nomatch made
  | none =>
    have accepted := Params.accepted conditions
    obtain ⟨noBase, noRescaling⟩ := Context.ofParams_of_exhausted conditions
    -- The second search is made with what the first has found, so the cases are nested.
    cases hbase : Prime.listBelow params.baseBits 1 params.ringDegree [] with
    | error e =>
      obtain ⟨rfl, -⟩ := (accepted.listsBase.error e).mp hbase
      have refused := noBase _ hbase
      simp [refused]
    | ok base =>
      cases hrescaling :
          Prime.listBelow params.scaleBits params.levels params.ringDegree base with
      | error e =>
        obtain ⟨rfl, -⟩ := ((accepted.listsRescaling base).error e).mp hrescaling
        have refused := noRescaling base _ hbase hrescaling
        simp [refused]
      | ok rescaling =>
        have chain : params.Chain base rescaling :=
          ⟨(accepted.listsBase.ok base).mp hbase,
            ((accepted.listsRescaling base).ok rescaling).mp hrescaling⟩
        have made := Context.ofParams_eq_ok_of_chain conditions chain
        simp [made, chain.meets accepted primitives]

attribute [local instance] Primitives.coarse

/-- The primes 457 and 241 are what degree 4 with 9 and 8 bits gives. -/
theorem Context.ofParams_answers_tiny :
    Context.tiny.params.problem? = none ∧ Context.tiny.Meets Context.tiny.params :=
  ⟨rfl, (Context.ofParams_answers Context.tiny.params).2.2 Context.tiny Context.ofParams_tiny⟩

end CipherFlow
