import CipherFlow.Element.Nonlinear
import CipherFlow.Proofs.Run.Answers
import CipherFlow.Proofs.Scheme.Homomorphism
import CipherFlow.Tensor.Elements

/-!
# Levels of elements

An encrypted element has a level, a plain one has none. Sums and products are
taken of encrypted elements of one level only and stay there; with plain
operands the encrypted one keeps its level, whether it is held as a ciphertext
or known to be zero. Rescaling goes one level down, and fails at the lowest.

`Carries` is the form in which all of this is stated, for one operand or several.
Main lemmas: `add_carries`, `multiply_carries`, `rescale_carries`, and
`rescaleAll_exhausted_iff` for the lowest level.
-/

namespace CipherFlow

open Answering

/-! ## Ciphertexts

What is computed is put together at the end, with the level of an operand. So the
steps before that are only passed, whatever they give. -/

theorem Plaintext.level_encrypt {p : Plaintext} {ctx : Context} {key : PublicKey} {ct : Ciphertext}
    (h : May (p.encrypt ctx key) ct) : ct.level = p.level := by
  obtain ⟨u, -, h⟩ := may_bind h
  obtain ⟨e0, -, h⟩ := may_bind h
  obtain ⟨e1, -, h⟩ := may_bind h
  have h : p.encryptWith ctx key ⟨u, e0, e1⟩ = .ok ct := eq_ok_of_may_lift h
  obtain ⟨basis, -, h⟩ := exists_of_bind_eq_ok h
  obtain ⟨⟨b, a⟩, -, h⟩ := exists_of_bind_eq_ok h
  obtain ⟨_, -, h⟩ := exists_of_bind_eq_ok h
  obtain ⟨_, -, h⟩ := exists_of_bind_eq_ok h
  obtain ⟨_, -, h⟩ := exists_of_bind_eq_ok h
  obtain ⟨_, -, h⟩ := exists_of_bind_eq_ok h
  obtain ⟨_, -, h⟩ := exists_of_bind_eq_ok h
  obtain rfl := Except.ok.inj h
  rfl

namespace Evaluator

variable {ev : Evaluator} {a b ct : Ciphertext} {p : Plaintext} {lanes : List Float}
  {packing : Packing} {scale : Binary64} {level : Nat}

theorem level_encode {ctx : Context} (h : ctx.encode lanes packing scale level = .ok p) :
    p.level = level := by
  obtain ⟨_, -, h⟩ := exists_of_bind_eq_ok h
  obtain ⟨_, -, h⟩ := exists_of_bind_eq_ok h
  obtain ⟨_, -, h⟩ := exists_of_bind_eq_ok h
  obtain rfl := Except.ok.inj h
  rfl

theorem level_encrypt (h : May (ev.encrypt lanes packing scale level) ct) : ct.level = level := by
  obtain ⟨p, hp, h⟩ := may_bind h
  rw [Plaintext.level_encrypt h, level_encode (eq_ok_of_may_lift hp)]

theorem level_add (h : ev.add a b = .ok ct) : ct.level = a.level := by
  obtain ⟨_, -, h⟩ := exists_of_bind_eq_ok h
  obtain ⟨_, -, h⟩ := exists_of_bind_eq_ok h
  dsimp only at h
  split at h
  all_goals
    obtain ⟨_, -, h⟩ := exists_of_bind_eq_ok h
    obtain rfl := Except.ok.inj h
    rfl

theorem level_addPlain (h : ev.addPlain a p = .ok ct) : ct.level = a.level := by
  obtain ⟨_, -, h⟩ := exists_of_bind_eq_ok h
  obtain ⟨_, -, h⟩ := exists_of_bind_eq_ok h
  split at h
  · exact nomatch h
  · obtain ⟨_, -, h⟩ := exists_of_bind_eq_ok h
    obtain rfl := Except.ok.inj h
    rfl

theorem level_multiply (h : ev.multiply a b = .ok ct) : ct.level = a.level := by
  obtain ⟨_, -, h⟩ := exists_of_bind_eq_ok h
  obtain ⟨_, -, h⟩ := exists_of_bind_eq_ok h
  split at h
  · obtain ⟨_, -, h⟩ := exists_of_bind_eq_ok h
    obtain ⟨_, -, h⟩ := exists_of_bind_eq_ok h
    obtain ⟨_, -, h⟩ := exists_of_bind_eq_ok h
    obtain ⟨_, -, h⟩ := exists_of_bind_eq_ok h
    obtain ⟨_, -, h⟩ := exists_of_bind_eq_ok h
    obtain ⟨⟨c0, c1⟩, -, h⟩ := exists_of_bind_eq_ok h
    obtain rfl := Except.ok.inj h
    rfl
  · exact nomatch h

theorem level_multiplyPlain (h : ev.multiplyPlain a p = .ok ct) : ct.level = a.level := by
  obtain ⟨_, -, h⟩ := exists_of_bind_eq_ok h
  obtain ⟨_, -, h⟩ := exists_of_bind_eq_ok h
  obtain rfl := Except.ok.inj h
  rfl

end Evaluator

/-- A level has a prime to divide by if it is above the lowest. -/
theorem Context.rescaleModulus_eq_none {ctx : Context} {level : Nat}
    (within : level ≤ ctx.topLevel) :
    ctx.rescaleModulus level = none ↔ level = 0 := by
  unfold rescaleModulus
  by_cases lowest : level = 0
  · simp [lowest]
  · have inside : level < ctx.primes.length := by unfold topLevel at within; omega
    simp [lowest, List.getElem?_eq_getElem inside]

theorem Context.pos_of_rescaleModulus {ctx : Context} {level q : Nat}
    (h : ctx.rescaleModulus level = some q) : 0 < level := by
  unfold rescaleModulus at h
  split at h
  · exact nomatch h
  · omega

theorem Evaluator.level_rescale {ev : Evaluator} {a ct : Ciphertext} (h : ev.rescale a = .ok ct) :
    ct.level + 1 = a.level := by
  unfold rescale at h
  split at h
  · exact nomatch h
  · rename_i q modulus
    have pos := Context.pos_of_rescaleModulus modulus
    obtain ⟨_, -, h⟩ := exists_of_bind_eq_ok h
    obtain ⟨_, -, h⟩ := exists_of_bind_eq_ok h
    obtain rfl := Except.ok.inj h
    exact Nat.sub_add_cancel pos

/-! ## Elements

A level is told of plain elements, too, as none. For operations on two elements
there is then one statement and not four. -/

/-- A level that comes of those of operands, `drop` levels further down:
encrypted operands are all of one level, and the outcome is encrypted if one
of them is. -/
structure Carries (drop : Nat) (operands : List (Option Nat)) (level : Option Nat) : Prop where
  operand : ∀ l, level = some l → some (l + drop) ∈ operands
  outcome : ∀ m, some m ∈ operands → ∃ l, level = some l ∧ m = l + drop

namespace Carries

variable {k l m : Nat}

theorem of_plain {drop : Nat} {operands : List (Option Nat)} (plain : ∀ o ∈ operands, o = none) :
    Carries drop operands none where
  operand := fun _ h => nomatch h
  outcome := fun m h => nomatch plain (some m) h

theorem of_left (same : l = k) : Carries 0 [some k, none] (some l) :=
  ⟨fun _ h => by simp_all, fun _ h => by simp_all⟩

theorem of_right (same : l = k) : Carries 0 [none, some k] (some l) :=
  ⟨fun _ h => by simp_all, fun _ h => by simp_all⟩

theorem of_both (same : k = m) (level : l = k) : Carries 0 [some k, some m] (some l) :=
  ⟨fun _ h => by simp_all, fun _ h => by simp_all⟩

theorem of_lower (lower : l + 1 = k) : Carries 1 [some k] (some l) :=
  ⟨fun _ h => by simp_all, fun _ h => by simp_all⟩

variable {drop : Nat} {operands : List (Option Nat)} {level level' : Option Nat}

/-- Operands determine the level of the outcome. -/
theorem unique (h : Carries drop operands level) (h' : Carries drop operands level') :
    level = level' := by
  have le : ∀ {a b : Option Nat}, Carries drop operands a → Carries drop operands b →
      ∀ k, a = some k → b = some k := by
    intro a b ha hb k eq
    obtain ⟨m, hm, same⟩ := hb.outcome _ (ha.operand k eq)
    rw [hm, Nat.add_right_cancel same]
  cases level with
  | some k => exact (le h h' k rfl).symm
  | none =>
    cases level' with
    | none => rfl
    | some k => exact nomatch le h' h k rfl

theorem same (l : Option Nat) : Carries 0 [l] l :=
  ⟨fun _ h => by simp [h], fun m h => ⟨m, by simpa using (List.mem_singleton.mp h).symm, rfl⟩⟩

theorem pair (l : Option Nat) : Carries 0 [l, l] l :=
  ⟨fun _ h => by simp [h], fun m h => ⟨m, by simpa [eq_comm] using h, rfl⟩⟩

theorem pair_none (l : Option Nat) : Carries 0 [l, none] l :=
  ⟨fun _ h => by simp [h], fun m h => ⟨m, by simpa [eq_comm] using h, rfl⟩⟩

end Carries

namespace Element

/-- The level of an encrypted element. -/
def level? : Element → Option Nat
  | .plain _ => none
  | .cipher h => some h.level

variable {ev : Evaluator} {x y z : Handle} {p : List Float} {a b c : Element}

theorem level_of_checkOperands (h : checkOperands x y = .ok ()) : x.level = y.level := by
  unfold checkOperands at h
  split at h
  · exact nomatch h
  · obtain ⟨_, same, -⟩ := exists_of_bind_eq_ok h
    exact Evaluator.eq_of_checkLevel (eq_ok_of_mapError same)

theorem level_addPlain (h : May (addPlain ev x p) z) : z.level = x.level := by
  unfold addPlain at h
  split at h
  · obtain rfl := may_pure h
    rfl
  · split at h
    · rename_i state
      obtain ⟨ct, hct, h⟩ := may_bind h
      obtain rfl := may_pure h
      have same := Evaluator.level_encrypt (may_of_may_withError hct)
      simp only [Handle.level, state, Handle.ofCiphertext, same]
    · rename_i ct state
      obtain ⟨encoded, -, h⟩ := may_bind h
      obtain ⟨sum, hsum, h⟩ := may_bind h
      obtain rfl := may_pure h
      have hsum : ev.addPlain ct encoded = .ok sum := eq_ok_of_may_lift (may_of_may_withError hsum)
      have same := Evaluator.level_addPlain hsum
      simp only [Handle.level, state, Handle.ofCiphertext, same]

theorem level_addCipher (h : addCipher ev x y = .ok z) :
    x.level = y.level ∧ z.level = x.level := by
  obtain ⟨_, checked, h⟩ := exists_of_bind_eq_ok h
  have same := level_of_checkOperands checked
  refine ⟨same, ?_⟩
  split at h
  · obtain rfl := Except.ok.inj h
    exact same.symm
  · obtain rfl := Except.ok.inj h
    rfl
  · rename_i stateX _
    obtain ⟨sum, hsum, h⟩ := exists_of_bind_eq_ok h
    obtain rfl := Except.ok.inj h
    have kept := Evaluator.level_add (eq_ok_of_mapError hsum)
    simp only [Handle.level, stateX, Handle.ofCiphertext, kept]

theorem level_multiplyPlain (h : multiplyPlain ev x p = .ok z) : z.level = x.level := by
  unfold multiplyPlain at h
  split at h
  · obtain rfl := Except.ok.inj h
    rfl
  · rename_i state
    split at h
    · obtain rfl := Except.ok.inj h
      rfl
    · obtain ⟨_, -, h⟩ := exists_of_bind_eq_ok h
      obtain ⟨_, -, h⟩ := exists_of_bind_eq_ok h
      obtain ⟨_, hproduct, h⟩ := exists_of_bind_eq_ok h
      obtain rfl := Except.ok.inj h
      have kept := Evaluator.level_multiplyPlain (eq_ok_of_mapError hproduct)
      simp only [Handle.level, state, Handle.ofCiphertext, kept]

theorem level_multiplyCipher (h : multiplyCipher ev x y = .ok z) :
    x.level = y.level ∧ z.level = x.level := by
  unfold multiplyCipher at h
  dsimp only at h
  split at h
  · exact nomatch h
  · obtain ⟨_, checked, h⟩ := exists_of_bind_eq_ok h
    refine ⟨level_of_checkOperands checked, ?_⟩
    split at h
    · rename_i stateX _
      obtain ⟨_, hproduct, h⟩ := exists_of_bind_eq_ok h
      obtain rfl := Except.ok.inj h
      have kept := Evaluator.level_multiply (eq_ok_of_mapError hproduct)
      simp only [Handle.level, stateX, Handle.ofCiphertext, kept]
    · obtain rfl := Except.ok.inj h
      rfl

/-- The level of a sum is that of the encrypted operands. -/
theorem add_carries (h : May (add ev a b) c) : Carries 0 [a.level?, b.level?] c.level? := by
  cases a with
  | plain p =>
    cases b with
    | plain q =>
      obtain ⟨_, -, h⟩ := may_bind h
      obtain rfl := may_pure h
      exact .of_plain (by simp [level?])
    | cipher y =>
      obtain ⟨z, hz, h⟩ := may_bind h
      obtain rfl := may_pure h
      exact .of_right (level_addPlain hz)
  | cipher x =>
    cases b with
    | plain q =>
      obtain ⟨z, hz, h⟩ := may_bind h
      obtain rfl := may_pure h
      exact .of_left (level_addPlain hz)
    | cipher y =>
      obtain ⟨z, hz, h⟩ := may_bind h
      obtain rfl := may_pure h
      obtain ⟨same, level⟩ := level_addCipher (eq_ok_of_may_lift hz)
      exact .of_both same level

/-- So is the level of a product. -/
theorem multiply_carries (h : May (multiply ev a b) c) :
    Carries 0 [a.level?, b.level?] c.level? := by
  cases a with
  | plain p =>
    cases b with
    | plain q =>
      obtain ⟨_, -, h⟩ := may_bind h
      obtain rfl := may_pure h
      exact .of_plain (by simp [level?])
    | cipher y =>
      obtain ⟨z, hz, h⟩ := may_bind h
      obtain rfl := may_pure h
      exact .of_right (level_multiplyPlain (eq_ok_of_may_lift hz))
  | cipher x =>
    cases b with
    | plain q =>
      obtain ⟨z, hz, h⟩ := may_bind h
      obtain rfl := may_pure h
      exact .of_left (level_multiplyPlain (eq_ok_of_may_lift hz))
    | cipher y =>
      obtain ⟨z, hz, h⟩ := may_bind h
      obtain rfl := may_pure h
      obtain ⟨same, level⟩ := level_multiplyCipher (eq_ok_of_may_lift hz)
      exact .of_both same level

/-! ## Rescaling -/

theorem level_rescaleHandle (h : rescaleHandle ev x = .ok z) : z.level + 1 = x.level := by
  unfold rescaleHandle at h
  split at h
  · rename_i scale level state
    split at h
    · rename_i q modulus
      obtain rfl := Except.ok.inj h
      simp only [Handle.level, state, Handle.zero]
      exact Nat.sub_add_cancel (Context.pos_of_rescaleModulus modulus)
    · exact nomatch h
  · rename_i ct state
    obtain ⟨_, hct, h⟩ := exists_of_bind_eq_ok h
    obtain rfl := Except.ok.inj h
    have lower := Evaluator.level_rescale (eq_ok_of_mapError hct)
    simp only [Handle.level, state, Handle.ofCiphertext, lower]

/-- Rescaling goes one level down. -/
theorem rescale_carries (h : rescale ev a = .ok c) :
    Carries 1 [a.level?] c.level? := by
  cases a with
  | plain p =>
    obtain rfl := Except.ok.inj h
    exact .of_plain (by simp [level?])
  | cipher x =>
    obtain ⟨z, hz, h⟩ := exists_of_bind_eq_ok h
    obtain rfl := Except.ok.inj h
    exact .of_lower (level_rescaleHandle hz)

end Element

/-- Rescaling of a ciphertext finds the chain exhausted exactly at the lowest
level: elsewhere there is a basis to go down to. -/
theorem Evaluator.rescale_exhausted_iff {ev : Evaluator} {ct : Ciphertext}
    (within : ct.level ≤ ev.context.topLevel) :
    ev.rescale ct = .error .modulusChainExhausted ↔ ct.level = 0 := by
  rw [← Context.rescaleModulus_eq_none within]
  unfold rescale
  cases modulus : ev.context.rescaleModulus ct.level with
  | none => exact ⟨fun _ => rfl, fun _ => rfl⟩
  | some q =>
    have pos := Context.pos_of_rescaleModulus modulus
    have lower : ev.context.basis (ct.level - 1) = .ok (ev.context.basisAt (ct.level - 1)) :=
      if_pos (by unfold Context.topLevel at within; omega)
    simp only [lower, reduceCtorEq, iff_false]
    -- There is a prime to divide by. What may still fail is a basis, or a ring element, and
    -- fails otherwise.
    intro h
    rcases of_bind_eq_error h with failed | ⟨target, -, h⟩
    · exact nomatch failed
    · rcases of_bind_eq_error h with failed | ⟨components, -, h⟩
      · obtain ⟨c, -, failed⟩ := exists_of_mapM_eq_error failed
        obtain ⟨_, -, other⟩ := exists_of_mapError failed
        exact nomatch other
      · exact nomatch h

namespace Element

variable {ev : Evaluator} {x : Handle} {values : List Element} {l : Nat}

theorem rescaleHandle_exhausted_iff (within : x.level ≤ ev.context.topLevel) :
    rescaleHandle ev x = .error (.scheme .modulusChainExhausted) ↔ x.level = 0 := by
  unfold rescaleHandle
  cases state : x.state with
  | zero scale level =>
    have eq : x.level = level := by simp only [Handle.level, state]
    rw [eq] at within ⊢
    rw [← Context.rescaleModulus_eq_none within]
    cases modulus : ev.context.rescaleModulus level <;> simp [modulus]
  | encrypted ct =>
    have eq : x.level = ct.level := by simp only [Handle.level, state]
    rw [eq] at within ⊢
    rw [← Evaluator.rescale_exhausted_iff within]
    constructor
    · intro h
      rcases of_bind_eq_error h with failed | ⟨_, -, h⟩
      · obtain ⟨e, failed, same⟩ := exists_of_mapError failed
        obtain rfl := Error.scheme.inj same
        exact failed
      · exact nomatch h
    · intro h
      simp only [h]
      rfl

/-- Rescaling of encrypted elements of one level finds the chain exhausted
exactly at the lowest level. -/
theorem rescaleAll_exhausted_iff (some' : values ≠ []) (levels : ∀ e ∈ values, e.level? = some l)
    (within : l ≤ ev.context.topLevel) :
    rescaleAll ev values = .error (.scheme .modulusChainExhausted) ↔ l = 0 := by
  have each : ∀ e ∈ values, rescale ev e = .error (.scheme .modulusChainExhausted) ↔ l = 0 := by
    intro e he
    cases e with
    | plain p => exact nomatch levels _ he
    | cipher x =>
      obtain rfl : x.level = l := Option.some.inj (levels _ he)
      rw [← rescaleHandle_exhausted_iff within]
      constructor
      · intro h
        rcases of_bind_eq_error h with failed | ⟨_, -, h⟩
        · exact failed
        · exact nomatch h
      · intro h
        simp only [rescale, h]
        rfl
  constructor
  · intro h
    obtain ⟨e, he, failed⟩ := exists_of_mapM_eq_error h
    exact (each e he).mp failed
  · -- The first element fails, and then the others are not looked at.
    intro lowest
    obtain ⟨e, rest, rfl⟩ := List.exists_cons_of_ne_nil some'
    rw [rescaleAll, List.mapM_cons, (each e List.mem_cons_self).mpr lowest]
    rfl

/-! ## Nonlinear functions -/

/-- A nonlinear function encrypts its value at the level of the element. -/
theorem level_applyWithKey {f : Nonlinear} {lanes : Nat} {key : SecretKey} {z : Handle}
    (h : May (f.applyWithKey x lanes key ev) z) : z.level = x.level := by
  unfold Nonlinear.applyWithKey at h
  split at h
  · obtain rfl := may_pure h
    rfl
  · obtain ⟨values, -, h⟩ := may_bind h
    obtain ⟨ct, hct, h⟩ := may_bind h
    obtain rfl := may_pure h
    exact Evaluator.level_encrypt (may_of_may_withError hct)

end Element

end CipherFlow
