import CipherFlow.Proofs.Scheme.Encryption
import CipherFlow.Proofs.Scheme.Multiplication

/-!
# Operations that decryption respects

What a ciphertext decrypts to is the value of its components at the secret, and
sums, sums and products with plaintexts, and the passage to fewer primes act on
that value, however many components there are. So decryption takes them to the
operations on ring elements. They are refused for levels and scales that do not
fit, and for nothing else.

`Evaluator.decrypt_homomorphic` collects the operations, each with the condition
under which it succeeds.

How the proof goes. The value of the components at the secret (`HasValue`)
determines what is decrypted (`HasValue.decryptsAs`), and every operation acts on it
by one equation. Sums are by recursion on the components, as the shorter list runs
out first (`addComponents_ok`); whatever treats all components alike is
`mapM_components_ok`. The conditions are read off the checks, which come before any
arithmetic.
-/

namespace CipherFlow

open CipherFlow.Ring (Basis Poly)

/-! ## Values of components -/

namespace Ciphertext

variable {ctx : Context} {b B : Basis} {x y : List Poly} {r : Ciphertext}

/-- A well-formed ciphertext with a component at least. -/
structure Proper (ctx : Context) (c : Ciphertext) : Prop where
  wellFormed : c.WellFormed ctx
  nonempty : c.components ≠ []

/-- A ciphertext of a level that has a given value at every secret, in the ring
of the level and in those of fewer primes. -/
structure HasValue (ctx : Context) (l : Nat) (f : SecretKey → (b : Basis) → b.Quotient)
    (r : Ciphertext) : Prop where
  proper : r.Proper ctx
  level : r.level = l
  value : ∀ secret b, b.isInitialOf (ctx.basisAt l) = true → r.valueAt secret b = f secret b

/-- Under a secret the ciphertext decrypts to the result of an operation on
elements over the basis of a level. The operation has a result. -/
structure DecryptsAs (ctx : Context) (secret : SecretKey) (l : Nat)
    (result : Except Ring.Error Poly) (r : Ciphertext) : Prop where
  level : r.level = l
  decrypts : ∃ z, r.decrypt secret = .ok z ∧ z.level = l ∧ z.poly.IsOver (ctx.basisAt l) ∧
    result = .ok z.poly

/-- The value of a ciphertext tells what it decrypts to. -/
theorem HasValue.decryptsAs {l : Nat} {f : SecretKey → (b : Basis) → b.Quotient}
    {secret : SecretKey} {result : Except Ring.Error Poly} {z : Poly} (h : r.HasValue ctx l f)
    (sound : ctx.Sound) (hs : secret.poly.IsOver ctx.topBasis) (eq : result = .ok z)
    (hz : z.IsOver (ctx.basisAt l))
    (image : z.image (ctx.basisAt l) = f secret (ctx.basisAt l)) :
    r.DecryptsAs ctx secret l result := by
  obtain ⟨proper, rfl, hvalue⟩ := h
  have valid := sound.valid_basisAt r.level
  have self := (ctx.basisAt r.level).isInitialOf_self
  obtain ⟨p, hp, -, level, isOver, imageP⟩ := decrypt_ok valid (ctx.isInitialOf_topBasis r.level) hs
    proper.nonempty proper.wellFormed.components
  refine ⟨rfl, p, hp, level, isOver, eq.trans (congrArg _ ?_)⟩
  refine Ring.eq_of_image_eq valid.degree_ne valid.one_lt hz isOver ?_
  rw [image, imageP _ self, hvalue secret _ self]

/-- The value of a sum of components, the shorter list being on the right. -/
theorem addComponents_ok (hx : ∀ c ∈ x, c.IsOver B) (hy : ∀ c ∈ y, c.IsOver B)
    (le : y.length ≤ x.length) (scale : Binary64) (level : Nat) :
    ∃ r, Evaluator.addComponents x y = .ok r ∧ r.length = x.length ∧ (∀ c ∈ r, c.IsOver B) ∧
      ∀ secret b, b.isInitialOf B = true →
        valueAt ⟨r, scale, level⟩ secret b =
          valueAt ⟨x, scale, level⟩ secret b + valueAt ⟨y, scale, level⟩ secret b := by
  induction x generalizing y with
  | nil =>
    obtain rfl := List.length_eq_zero_iff.mp (Nat.le_zero.mp le)
    exact ⟨[], rfl, rfl, hx, fun secret b _ => by simp [valueAt]⟩
  | cons c x ih =>
    cases y with
    | nil => exact ⟨c :: x, rfl, rfl, hx, fun secret b _ => by simp [valueAt]⟩
    | cons d y =>
      obtain ⟨overC, overX⟩ := List.forall_mem_cons.mp hx
      obtain ⟨overD, overY⟩ := List.forall_mem_cons.mp hy
      obtain ⟨sum, hsum, overSum, imageSum⟩ := Ring.add_ok overC overD
      obtain ⟨r, hr, length, isOver, value⟩ := ih overX overY (Nat.le_of_succ_le_succ le)
      refine ⟨sum :: r, ?_, congrArg (· + 1) length, List.forall_mem_cons.mpr ⟨overSum, isOver⟩, ?_⟩
      · rw [Evaluator.addComponents, hsum]
        show Evaluator.addComponents x y >>= _ = _
        rw [hr]
        rfl
      · intro secret b small
        rw [valueAt_cons, valueAt_cons, valueAt_cons, imageSum b small, value secret b small]
        ring

/-- What is done to every component, if it multiplies the image of each by one
factor. -/
theorem mapM_components_ok {f : Poly → Except Ring.Error Poly}
    {factor : (b : Basis) → b.Quotient}
    (each : ∀ c, c.IsOver B → ∃ r, f c = .ok r ∧ r.IsOver b ∧
      ∀ b' : Basis, b'.isInitialOf b = true → r.image b' = c.image b' * factor b')
    (hx : ∀ c ∈ x, c.IsOver B) (scale : Binary64) (level : Nat) :
    ∃ r, x.mapM (fun c => (f c).mapError Scheme.Error.ring) = .ok r ∧ r.length = x.length ∧
      (∀ c ∈ r, c.IsOver b) ∧
      ∀ secret b', b'.isInitialOf b = true →
        valueAt ⟨r, scale, level⟩ secret b' =
          valueAt ⟨x, scale, level⟩ secret b' * factor b' := by
  induction x with
  | nil => exact ⟨[], rfl, rfl, List.forall_mem_nil _, fun secret b' _ => by simp [valueAt]⟩
  | cons c x ih =>
    obtain ⟨overC, overX⟩ := List.forall_mem_cons.mp hx
    obtain ⟨d, hd, overD, imageD⟩ := each c overC
    obtain ⟨r, hr, length, isOver, value⟩ := ih overX
    refine ⟨d :: r, ?_, congrArg (· + 1) length, List.forall_mem_cons.mpr ⟨overD, isOver⟩, ?_⟩
    · rw [List.mapM_cons, hd, hr]
      rfl
    · intro secret b' small
      rw [valueAt_cons, valueAt_cons, imageD b' small, value secret b' small]
      ring

theorem ne_nil_of_length_eq (h : x ≠ []) (length : y.length = x.length) : y ≠ [] :=
  List.ne_nil_of_length_pos (length ▸ List.length_pos_iff.mpr h)

end Ciphertext

namespace Evaluator

variable {ctx : Context} {ev : Evaluator} {a b r : Ciphertext} {p : Plaintext}

/-! ## The operations on values -/

variable (ev) in
/-- The values are added. -/
theorem add_ok (ha : a.Proper ctx) (hb : b.Proper ctx) (level : a.level = b.level)
    (scales : Scheme.scalesMatch a.scale b.scale = true) :
    ∃ r, ev.add a b = .ok r ∧
      r.HasValue ctx a.level fun secret B => a.valueAt secret B + b.valueAt secret B := by
  obtain ⟨componentsA, σ, l⟩ := a
  obtain ⟨componentsB, τ, _⟩ := b
  obtain rfl : l = _ := level
  have lt := ha.wellFormed.level
  have overA := ha.wellFormed.components
  have overB := hb.wellFormed.components
  by_cases le : componentsB.length ≤ componentsA.length
  · obtain ⟨r, hr, length, isOver, value⟩ := Ciphertext.addComponents_ok overA overB le σ l
    refine ⟨⟨r, σ, l⟩, ?_, ⟨⟨⟨lt, isOver⟩, Ciphertext.ne_nil_of_length_eq ha.nonempty length⟩, rfl,
      value⟩⟩
    simp only [add, Scheme.checkLevel, Scheme.checkScale, scales, Ciphertext.size, if_pos, le, hr]
    rfl
  · have le' : componentsA.length ≤ componentsB.length := Nat.le_of_not_le le
    obtain ⟨r, hr, length, isOver, value⟩ := Ciphertext.addComponents_ok overB overA le' σ l
    refine ⟨⟨r, σ, l⟩, ?_, ⟨⟨⟨lt, isOver⟩, Ciphertext.ne_nil_of_length_eq hb.nonempty length⟩, rfl,
      fun secret B small => (value secret B small).trans (add_comm _ _)⟩⟩
    simp only [add, Scheme.checkLevel, Scheme.checkScale, scales, Ciphertext.size, if_pos, le,
      hr]
    rfl

variable (ev) in
/-- The element is added to the first component. -/
theorem addPlain_ok (ha : a.Proper ctx) (hp : p.WellFormed ctx)
    (level : a.level = p.level) (scales : Scheme.scalesMatch a.scale p.scale = true) :
    ∃ r, ev.addPlain a p = .ok r ∧
      r.HasValue ctx a.level fun secret B => a.valueAt secret B + p.poly.image B := by
  obtain ⟨components, σ, l⟩ := a
  obtain ⟨m, τ, _⟩ := p
  obtain rfl : l = _ := level
  obtain ⟨first, rest, rfl⟩ := List.exists_cons_of_ne_nil ha.nonempty
  obtain ⟨overFirst, overRest⟩ := List.forall_mem_cons.mp ha.wellFormed.components
  obtain ⟨sum, hsum, overSum, image⟩ := Ring.add_ok overFirst hp.poly
  refine ⟨⟨sum :: rest, σ, l⟩, ?_, ⟨⟨ha.wellFormed.level,
    List.forall_mem_cons.mpr ⟨overSum, overRest⟩⟩, List.cons_ne_nil _ _⟩, rfl, ?_⟩
  · simp only [addPlain, Scheme.checkLevel, Scheme.checkScale, scales, if_pos, hsum]
    rfl
  · intro secret B small
    rw [Ciphertext.valueAt_cons, Ciphertext.valueAt_cons, image B small]
    ring

variable (ev) in
/-- The value is multiplied. -/
theorem multiplyPlain_ok (sound : ctx.Sound) (ha : a.Proper ctx)
    (hp : p.WellFormed ctx) (level : a.level = p.level) :
    ∃ r, ev.multiplyPlain a p = .ok r ∧
      r.HasValue ctx a.level fun secret B => a.valueAt secret B * p.poly.image B := by
  obtain ⟨components, σ, l⟩ := a
  obtain ⟨m, τ, _⟩ := p
  obtain rfl : l = _ := level
  obtain ⟨r, hr, length, isOver, value⟩ := Ciphertext.mapM_components_ok (f := (·.mul m))
    (fun c hc => Ring.mul_ok (sound.valid_basisAt l).degree_ne hc hp.poly) ha.wellFormed.components
    (σ * τ) l
  refine ⟨⟨r, σ * τ, l⟩, ?_, ⟨⟨ha.wellFormed.level, isOver⟩,
    Ciphertext.ne_nil_of_length_eq ha.nonempty length⟩, rfl, value⟩
  rw [multiplyPlain, Scheme.checkLevel, if_pos rfl]
  show (components.mapM fun c => (c.mul m).mapError Scheme.Error.ring) >>= _ = _
  rw [hr]
  rfl

/-- The value stays, in the rings that are left. -/
theorem switchTo_ok (same : ev.context = ctx) (ha : a.Proper ctx) {l : Nat} (le : l ≤ a.level) :
    ∃ r, ev.switchTo a l = .ok r ∧ r.HasValue ctx l fun secret B => a.valueAt secret B := by
  obtain ⟨components, σ, level⟩ := a
  have lt : l < ctx.primes.length := le.trans_lt ha.wellFormed.level
  have each : ∀ c : Poly, c.IsOver (ctx.basisAt level) →
      ∃ r, c.dropTo (ctx.basisAt l) = .ok r ∧ r.IsOver (ctx.basisAt l) ∧
        ∀ b : Basis, b.isInitialOf (ctx.basisAt l) = true → r.image b = c.image b * 1 := by
    simp only [mul_one]
    exact fun c => Ring.dropTo_ok (ctx.isInitialOf_basisAt le)
  obtain ⟨r, hr, length, isOver, value⟩ := Ciphertext.mapM_components_ok each
    ha.wellFormed.components σ l
  refine ⟨⟨r, σ, l⟩, ?_, ⟨⟨lt, isOver⟩, Ciphertext.ne_nil_of_length_eq ha.nonempty length⟩, rfl,
    fun secret B small => (value secret B small).trans (mul_one _)⟩
  rw [switchTo, if_neg (Nat.not_lt.mpr le), same, Context.basis_ok lt]
  show (components.mapM fun c => (c.dropTo (ctx.basisAt l)).mapError Scheme.Error.ring) >>= _ = _
  rw [hr]
  rfl

/-! ## What is checked -/

theorem eq_of_checkLevel {expected actual : Nat} (h : Scheme.checkLevel expected actual = .ok ()) :
    expected = actual := by
  unfold Scheme.checkLevel at h
  split at h
  · assumption
  · exact nomatch h

theorem scalesMatch_of_checkScale {expected actual : Float}
    (h : Scheme.checkScale expected actual = .ok ()) :
    Scheme.scalesMatch expected actual = true := by
  unfold Scheme.checkScale at h
  split at h
  · assumption
  · exact nomatch h

theorem checked_of_add (h : ev.add a b = .ok r) :
    a.level = b.level ∧ Scheme.scalesMatch a.scale b.scale = true := by
  obtain ⟨_, level, h⟩ := exists_of_bind_eq_ok h
  obtain ⟨_, scales, -⟩ := exists_of_bind_eq_ok h
  exact ⟨eq_of_checkLevel level, scalesMatch_of_checkScale scales⟩

theorem checked_of_addPlain (h : ev.addPlain a p = .ok r) :
    a.level = p.level ∧ Scheme.scalesMatch a.scale p.scale = true := by
  obtain ⟨_, level, h⟩ := exists_of_bind_eq_ok h
  obtain ⟨_, scales, -⟩ := exists_of_bind_eq_ok h
  exact ⟨eq_of_checkLevel level, scalesMatch_of_checkScale scales⟩

theorem checked_of_multiplyPlain (h : ev.multiplyPlain a p = .ok r) :
    a.level = p.level := by
  obtain ⟨_, level, -⟩ := exists_of_bind_eq_ok h
  exact eq_of_checkLevel level

theorem checked_of_switchTo {l : Nat} (h : ev.switchTo a l = .ok r) :
    l ≤ a.level := by
  unfold switchTo at h
  split at h
  · exact nomatch h
  · exact Nat.le_of_not_lt ‹_›

end Evaluator

/-! ## What decryption makes of the results -/

/-- An operation succeeds exactly under a condition, with a result that has a
property. -/
structure Scheme.SucceedsIff {α : Type} (x : Except Error α) (C : Prop) (P : α → Prop) : Prop where
  iff : (∃ r, x = .ok r) ↔ C
  result : ∀ r, x = .ok r → P r

theorem Scheme.succeedsIff_of_ok {α : Type} {x : Except Error α} {C : Prop} {P Q : α → Prop}
    (succeeds : C → ∃ r, x = .ok r ∧ P r) (checked : ∀ r, x = .ok r → C)
    (weaken : ∀ r, C → P r → Q r) : SucceedsIff x C Q where
  iff := ⟨fun ⟨r, hr⟩ => checked r hr, fun h => (succeeds h).imp fun _ => And.left⟩
  result r hr := by
    have h := checked r hr
    obtain ⟨r', hr', hP⟩ := succeeds h
    obtain rfl := Except.ok.inj (hr'.symm.trans hr)
    exact weaken r' h hP

/-- Decryption respects sums of ciphertexts of any sizes, sums and products with
plaintexts, and the passage to lower levels: it takes them to sums, products and
restrictions of ring elements, exactly and in the ring of the level of the
result. Sums succeed just for equal levels and matching scales, products with a
plaintext just for equal levels, and the passage to a level just if that is not
a higher one. -/
theorem Evaluator.decrypt_homomorphic [Primitives] {params : Params} {ctx : Context}
    (hctx : Context.ofParams params = .ok ctx) {secret : SecretKey}
    (hs : secret.poly.IsOver ctx.topBasis) {ev : Evaluator} (same : ev.context = ctx)
    {a b : Ciphertext} (ha : a.Proper ctx) (hb : b.Proper ctx) {p : Plaintext}
    (hp : p.WellFormed ctx) :
    ∃ x y, a.decrypt secret = .ok x ∧ b.decrypt secret = .ok y ∧
      Scheme.SucceedsIff (ev.add a b)
        (a.level = b.level ∧ Scheme.scalesMatch a.scale b.scale = true)
        (Ciphertext.DecryptsAs ctx secret a.level (x.poly.add y.poly)) ∧
      Scheme.SucceedsIff (ev.addPlain a p)
        (a.level = p.level ∧ Scheme.scalesMatch a.scale p.scale = true)
        (Ciphertext.DecryptsAs ctx secret a.level (x.poly.add p.poly)) ∧
      Scheme.SucceedsIff (ev.multiplyPlain a p) (a.level = p.level)
        (Ciphertext.DecryptsAs ctx secret a.level (x.poly.mul p.poly)) ∧
      ∀ l, Scheme.SucceedsIff (ev.switchTo a l) (l ≤ a.level)
        (Ciphertext.DecryptsAs ctx secret l (x.poly.dropTo (ctx.basisAt l))) := by
  have sound := Context.sound_of_ofParams hctx
  -- What a ciphertext decrypts to has the value of its components as image, at every level
  -- below.
  have decrypts : ∀ {c : Ciphertext}, c.Proper ctx → ∃ z, c.decrypt secret = .ok z ∧
      z.poly.IsOver (ctx.basisAt c.level) ∧ ∀ b : Basis,
        b.isInitialOf (ctx.basisAt c.level) = true → z.poly.image b = c.valueAt secret b := by
    intro c hc
    obtain ⟨z, hz, -, -, isOver, image⟩ := Ciphertext.decrypt_ok (sound.valid_basisAt c.level)
      (ctx.isInitialOf_topBasis c.level) hs hc.nonempty hc.wellFormed.components
    exact ⟨z, hz, isOver, image⟩
  obtain ⟨x, hx, overX, imageX⟩ := decrypts ha
  obtain ⟨y, hy, overY, imageY⟩ := decrypts hb
  have self := fun l => (ctx.basisAt l).isInitialOf_self
  refine ⟨x, y, hx, hy, ?_, ?_, ?_, fun l => ?_⟩
  · refine Scheme.succeedsIff_of_ok (fun h => ev.add_ok ha hb h.1 h.2) (fun _ => checked_of_add)
      fun r ⟨level, _⟩ h => ?_
    rw [← level] at overY imageY
    obtain ⟨z, hz, overZ, imageZ⟩ := Ring.add_ok overX overY
    refine h.decryptsAs sound hs hz overZ ?_
    rw [imageZ _ (self _), imageX _ (self _), imageY _ (self _)]
  · refine Scheme.succeedsIff_of_ok (fun h => ev.addPlain_ok ha hp h.1 h.2)
      (fun _ => checked_of_addPlain) fun r ⟨level, _⟩ h => ?_
    have overP := hp.poly
    rw [← level] at overP
    obtain ⟨z, hz, overZ, imageZ⟩ := Ring.add_ok overX overP
    refine h.decryptsAs sound hs hz overZ ?_
    rw [imageZ _ (self _), imageX _ (self _)]
  · refine Scheme.succeedsIff_of_ok (ev.multiplyPlain_ok sound ha hp)
      (fun _ => checked_of_multiplyPlain) fun r level h => ?_
    have overP := hp.poly
    rw [← level] at overP
    obtain ⟨z, hz, overZ, imageZ⟩ := Ring.mul_ok (sound.valid_basisAt a.level).degree_ne overX overP
    refine h.decryptsAs sound hs hz overZ ?_
    rw [imageZ _ (self _), imageX _ (self _)]
  · refine Scheme.succeedsIff_of_ok (switchTo_ok same ha) (fun _ => checked_of_switchTo)
      fun r le h => ?_
    have small := ctx.isInitialOf_basisAt le
    obtain ⟨z, hz, overZ, imageZ⟩ := Ring.dropTo_ok small overX
    refine h.decryptsAs sound hs hz overZ ?_
    rw [imageZ _ (self _), imageX _ small]

namespace Evaluator.Tiny

open Context (sound_tiny)

/-- A ciphertext of three components at the upper level. -/
def wide : Ciphertext :=
  ⟨[.ofInts Context.tiny.topBasis [1, 2, 3, 4], .ofInts Context.tiny.topBasis [100, 5, 6, 7],
    .ofInts Context.tiny.topBasis [0, -1, 0, 9]], .ofFloat 16, 1⟩

/-- One of two components. -/
def narrow : Ciphertext :=
  ⟨[.ofInts Context.tiny.topBasis [0, 1, 3, 0], .ofInts Context.tiny.topBasis [5, 1, 2, 90]],
    .ofFloat 16, 1⟩

/-- A plaintext at their level. -/
def message : Plaintext :=
  ⟨.ofInts Context.tiny.topBasis [7, 0, 0, -2], .ofFloat 16, 1⟩

theorem proper_wide : wide.Proper Context.tiny where
  wellFormed := ⟨Nat.one_lt_two, List.forall_mem_cons.mpr ⟨sound_tiny.isOver_ofInts 1 rfl,
    List.forall_mem_cons.mpr ⟨sound_tiny.isOver_ofInts 1 rfl,
      List.forall_mem_singleton.mpr (sound_tiny.isOver_ofInts 1 rfl)⟩⟩⟩
  nonempty := List.cons_ne_nil _ _

theorem proper_narrow : narrow.Proper Context.tiny where
  wellFormed := Ciphertext.wellFormed_pair Nat.one_lt_two (sound_tiny.isOver_ofInts 1 rfl)
    (sound_tiny.isOver_ofInts 1 rfl) _
  nonempty := List.cons_ne_nil _ _

theorem wellFormed_message : message.WellFormed Context.tiny :=
  ⟨Nat.one_lt_two, sound_tiny.isOver_ofInts 1 rfl⟩

attribute [local instance] Primitives.coarse

/-- A sum of three components and two, and the passage to the lower level. -/
theorem decrypt_homomorphic_tiny :
    Context.ofParams Context.tiny.params = .ok Context.tiny ∧
    secret.poly.IsOver Context.tiny.topBasis ∧ evaluator.context = Context.tiny ∧
    wide.Proper Context.tiny ∧ narrow.Proper Context.tiny ∧ message.WellFormed Context.tiny ∧
    ∃ x y sum lower, wide.decrypt secret = .ok x ∧ narrow.decrypt secret = .ok y ∧
      evaluator.add wide narrow = .ok sum ∧
      sum.DecryptsAs Context.tiny secret 1 (x.poly.add y.poly) ∧
      evaluator.switchTo wide 0 = .ok lower ∧
      lower.DecryptsAs Context.tiny secret 0 (x.poly.dropTo (Context.tiny.basisAt 0)) := by
  obtain ⟨x, y, hx, hy, add, -, -, switchTo⟩ := decrypt_homomorphic Context.ofParams_tiny
    isOver_secret (show evaluator.context = Context.tiny from rfl) proper_wide proper_narrow
    wellFormed_message
  have scale : Scheme.scalesMatch (Binary64.ofFloat 16) (Binary64.ofFloat 16) = true := by
    decide +kernel
  obtain ⟨sum, hsum⟩ := add.iff.mpr ⟨rfl, scale⟩
  obtain ⟨lower, hlower⟩ := (switchTo 0).iff.mpr (Nat.zero_le _)
  exact ⟨Context.ofParams_tiny, isOver_secret, rfl, proper_wide, proper_narrow, wellFormed_message,
    x, y, sum, lower, hx, hy, hsum, add.result sum hsum, hlower, (switchTo 0).result lower hlower⟩

end Evaluator.Tiny

end CipherFlow
