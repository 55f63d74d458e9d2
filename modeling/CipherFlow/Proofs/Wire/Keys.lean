import CipherFlow.Proofs.Wire.Ciphertext
import CipherFlow.Wire.Key

/-!
# Parameters, keys and their bytes

Parameters that meet their conditions are read from exactly the bytes that are
written for them. Keys are written over the top basis and are only read over
it: a header that names another level is refused.
-/

namespace CipherFlow

open CipherFlow.Ring (Basis Poly)

/-! ## Keys over a basis

Keys whose parts share one basis are put together from their parts. -/

variable {B : Basis}

theorem PublicKey.ofParts_ok {k : PublicKey} (h : k.IsOver B) :
    PublicKey.ofParts k.b k.a = .ok k := by
  rw [PublicKey.ofParts, h.b.basis, h.a.basis, if_pos rfl]

theorem RelinKey.ofDigits_ok (some : B.primes ≠ []) {k : RelinKey} (h : k.IsOver B) :
    RelinKey.ofDigits k.digits = .ok k := by
  obtain ⟨digits⟩ := k
  have length : digits.length = B.primes.length := h.length
  cases digits with
  | nil => exact absurd (List.length_eq_zero_iff.mp length.symm) some
  | cons d rest =>
    have all : ((d :: rest).all fun d' =>
        d'.1.basis.primes == d.1.basis.primes && d'.2.basis.primes == d.1.basis.primes) = true := by
      rw [List.all_eq_true]
      intro d' hd'
      rw [(h.digits d List.mem_cons_self).1.basis, (h.digits d' hd').1.basis,
        (h.digits d' hd').2.basis, beq_self_eq_true, Bool.true_and]
    have count : (d :: rest).length = d.1.basis.primes.length := by
      rw [(h.digits d List.mem_cons_self).1.basis, length]
    unfold RelinKey.ofDigits
    show (if (d :: rest).length ≠ d.1.basis.primes.length then _ else _) = _
    rw [if_neg (not_not.mpr count), if_pos all]

/-! ## The top level -/

variable {ctx : Context}

theorem Context.Sound.primes_ne_nil (h : ctx.Sound) : ctx.primes ≠ [] :=
  h.valid.primes_ne_nil

theorem Context.Sound.topLevel_lt (h : ctx.Sound) : ctx.topLevel < ctx.primes.length := by
  have pos := List.length_pos_iff.mpr h.primes_ne_nil
  rw [topLevel]
  omega

theorem Context.Sound.basisAt_topLevel (h : ctx.Sound) :
    ctx.basisAt ctx.topLevel = ctx.topBasis := by
  have := h.topLevel_lt
  have all : ctx.primes.take (ctx.topLevel + 1) = ctx.primes :=
    List.take_of_length_le (by rw [topLevel]; omega)
  rw [basisAt, all, topBasis]

namespace Wire

variable {bytes rest : Bytes}

/-! ## Parameters -/

/-- Parameters are read from exactly the bytes that are written for them, if
they meet their conditions. -/
theorem readParams_accepts : Accepts readParams paramsBytes (·.problem? = none) := by
  intro bytes p rest
  simp only [readParams, readWord_accepts.run_bind, (readNat_accepts 4).run_bind,
    readFloat_accepts.run_bind, true_and]
  have check : ∀ (p' : Params) (bytes : Bytes),
      (liftM (Scheme.checkParams p') : Reader Params).run bytes = .ok (p, rest) ↔
        p'.problem? = none ∧ p' = p ∧ bytes = rest := by
    intro p' bytes
    refine run_lift_eq_ok.trans ?_
    rw [Scheme.checkParams]
    cases p'.problem? with
    | none => simp
    | some problem => simp
  simp only [check]
  constructor
  · rintro ⟨degree, _, -, rfl, base, _, -, rfl, scale, _, -, rfl, levels, _, -, rfl, deviation, _,
      rfl, weight, _, -, rfl, accepted, rfl, rfl⟩
    exact ⟨accepted, by simp only [paramsBytes, List.append_assoc]⟩
  · -- Each field fits its width, as the conditions bound it.
    rintro ⟨accepted, rfl⟩
    have bounded := Params.bounded accepted
    have degree : p.ringDegree < wordSize := bounded.degree.trans_lt (by decide)
    have levels : p.levels < wordSize := bounded.levels.trans_lt (by decide)
    have weight : p.hammingWeight < wordSize := (Params.weight_le accepted).trans_lt degree
    have wide : (60 : Nat) < Nat.pow 256 4 := by decide
    obtain ⟨less, bits⟩ := bounded.bits
    exact ⟨p.ringDegree, _, degree, by simp only [paramsBytes, List.append_assoc], p.baseBits, _,
      by omega, rfl, p.scaleBits, _, by omega, rfl, p.levels, _, levels, rfl, p.errorStd, _, rfl,
      p.hammingWeight, rest, weight, rfl, accepted, rfl, rfl⟩

/-! ## Keys -/

/-- The bytes of the identifier of the top level. -/
def topBytes (ctx : Context) : Bytes :=
  levelIdBytes (ctx.idOf ctx.topBasis)

theorem topLevelBytes_ok (sound : ctx.Sound) : topLevelBytes ctx = .ok (topBytes ctx) := by
  have id : ctx.levelId ctx.topLevel = .ok (ctx.idOf ctx.topBasis) := by
    rw [Context.levelId, Context.basis_ok sound.topLevel_lt, sound.basisAt_topLevel]
    rfl
  rw [topLevelBytes, id]
  rfl

/-- Only the identifier of the top level is read. -/
theorem of_readTopLevel (sound : ctx.Sound) {b : Basis}
    (h : (readTopLevel ctx).run bytes = .ok (b, rest)) :
    b = ctx.topBasis ∧ bytes = topBytes ctx ++ rest := by
  obtain ⟨id, mid, -, rfl, found⟩ := readLevelId_accepts.run_bind.mp h
  by_cases top : ctx.levelOf id = some ctx.topLevel
  · rw [if_pos top] at found
    obtain ⟨rfl, rfl⟩ := run_pure_eq_ok.mp found
    obtain ⟨-, rfl⟩ := Context.of_levelOf top
    rw [topBytes, sound.basisAt_topLevel]
    exact ⟨rfl, rfl⟩
  · rw [if_neg top] at found
    exact nomatch found

theorem readTopLevel_accepts (sound : ctx.Sound) (distinct : ctx.DistinctIds) :
    Accepts (readTopLevel ctx) (fun _ => topBytes ctx) (· = ctx.topBasis) := by
  intro bytes b rest
  constructor
  · exact of_readTopLevel sound
  · rintro ⟨rfl, rfl⟩
    have top : ctx.levelOf (ctx.idOf ctx.topBasis) = some ctx.topLevel :=
      sound.basisAt_topLevel ▸ distinct.named sound.topLevel_lt
    refine readLevelId_accepts.run_bind.mpr ⟨_, rest, trivial, rfl, ?_⟩
    rw [if_pos top]
    rfl

theorem Context.Sized.prime_lt_wordSize (sized : ctx.Sized) : ∀ q ∈ ctx.primes, q < wordSize :=
  fun q hq => (sized.prime_lt q hq).trans (by decide)

/-- A pair is two ring elements over one basis. -/
theorem readPair_accepts (small : ∀ q ∈ B.primes, q < wordSize) :
    Accepts (readPair B) pairBytes fun d => d.1.IsOver B ∧ d.2.IsOver B := by
  intro bytes ⟨b, a⟩ rest
  simp only [readPair, (readPoly_accepts small).run_bind, run_pure_eq_ok, Prod.mk.injEq]
  constructor
  · rintro ⟨_, _, overB, rfl, _, _, overA, rfl, ⟨rfl, rfl⟩, rfl⟩
    exact ⟨⟨overB, overA⟩, by simp only [pairBytes, List.append_assoc]⟩
  · rintro ⟨⟨overB, overA⟩, rfl⟩
    exact ⟨b, _, overB, by simp only [pairBytes, List.append_assoc], a, rest, overA, rfl,
      ⟨rfl, rfl⟩, rfl⟩

/-- A public key is a header and a pair over the top basis. -/
theorem readPublicKey_run (sound : ctx.Sound) (sized : ctx.Sized) {k : PublicKey} :
    (readPublicKey ctx).run bytes = .ok (k, rest) ↔ k.IsOver ctx.topBasis ∧
      (readTopLevel ctx).run bytes = .ok (ctx.topBasis, pairBytes (k.b, k.a) ++ rest) := by
  have pair := readPair_accepts (B := ctx.topBasis) (Context.Sized.prime_lt_wordSize sized)
  rw [readPublicKey, run_bind_eq_ok]
  constructor
  · rintro ⟨basis, mid, head, read⟩
    obtain ⟨rfl, -⟩ := of_readTopLevel sound head
    obtain ⟨⟨b, a⟩, mid', ⟨overB, overA⟩, rfl, made⟩ := pair.run_bind.mp read
    obtain ⟨parts, rfl⟩ := run_lift_eq_ok.mp made
    have isOver : PublicKey.IsOver ctx.topBasis ⟨b, a⟩ := ⟨overB, overA⟩
    obtain rfl := Except.ok.inj ((PublicKey.ofParts_ok isOver).symm.trans parts)
    exact ⟨isOver, head⟩
  · rintro ⟨isOver, head⟩
    exact ⟨_, _, head, pair.run_bind.mpr ⟨(k.b, k.a), rest, ⟨isOver.b, isOver.a⟩, rfl,
      run_lift_eq_ok.mpr ⟨PublicKey.ofParts_ok isOver, rfl⟩⟩⟩

/-- A relinearisation key is a header and a pair for each prime. -/
theorem readRelinKey_run (sound : ctx.Sound) (sized : ctx.Sized) {k : RelinKey} :
    (readRelinKey ctx).run bytes = .ok (k, rest) ↔ k.IsOver ctx.topBasis ∧
      (readTopLevel ctx).run bytes =
        .ok (ctx.topBasis, wordBytes k.digits.length ++ (k.digits.flatMap pairBytes ++ rest)) := by
  have pairs := readMany_accepts
    (readPair_accepts (B := ctx.topBasis) (Context.Sized.prime_lt_wordSize sized))
  rw [readRelinKey, run_bind_eq_ok]
  constructor
  · rintro ⟨basis, mid, head, read⟩
    obtain ⟨rfl, -⟩ := of_readTopLevel sound head
    obtain ⟨count, mid', -, rfl, afterCount⟩ := readWord_accepts.run_bind.mp read
    obtain ⟨same, afterCount⟩ := run_check_eq_ok.mp afterCount
    obtain ⟨digits, mid'', ⟨length, all⟩, rfl, made⟩ := (pairs count).run_bind.mp afterCount
    obtain ⟨parts, rfl⟩ := run_lift_eq_ok.mp made
    have isOver : RelinKey.IsOver ctx.topBasis ⟨digits⟩ := ⟨length.trans (not_not.mp same), all⟩
    obtain rfl := Except.ok.inj ((RelinKey.ofDigits_ok sound.primes_ne_nil isOver).symm.trans parts)
    exact ⟨isOver, by rw [length]; exact head⟩
  · rintro ⟨isOver, head⟩
    -- The number of digits is written as a word: there are at most 33.
    have small : k.digits.length < wordSize := by
      have levels : ctx.params.levels ≤ 32 := sized.params.levels
      have count : k.digits.length = ctx.primes.length := isOver.length
      rw [count, sized.length_primes]
      exact lt_of_le_of_lt (show ctx.params.levels + 1 ≤ 33 by omega) (by decide)
    refine ⟨_, _, head, readWord_accepts.run_bind.mpr ⟨k.digits.length, _, small, rfl, ?_⟩⟩
    refine run_check_eq_ok.mpr ⟨not_not.mpr isOver.length, ?_⟩
    exact (pairs _).run_bind.mpr ⟨k.digits, rest, ⟨rfl, isOver.digits⟩, rfl,
      run_lift_eq_ok.mpr ⟨RelinKey.ofDigits_ok sound.primes_ne_nil isOver, rfl⟩⟩

end Wire

end CipherFlow
