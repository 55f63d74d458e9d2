import CipherFlow.Proofs.Element.Levels
import CipherFlow.Proofs.Scheme.Multiplication
import CipherFlow.Proofs.Scheme.Zeros

/-!
# Elements that are known to be zero

An element that is known to be zero stands for a ciphertext of zeros. The
operations on elements take shortcuts for it. Here they are compared with the
same operations on the ciphertext of zeros: wherever these succeed, so do the
shortcuts, and nobody who holds a secret key sees a difference.

`zeros_isShortcut` collects this for all shortcuts. That two elements cannot be told
apart is `Agrees`: one packing, one level, and one message under every secret.

How the proof goes. A ciphertext of zeros is added to another component by
component, so it only puts zeros behind the components, which no message depends on
(`of_padded`); a product with zeros has only zeros as components, and so has what
becomes of it by relinearising and rescaling (`of_zeros`). Zero lanes are encoded as
the zero polynomial, whatever the transforms are, and reduce to these cases. An
element has to have components, since a message is made from them.
-/

namespace CipherFlow

open CipherFlow.Ring (Basis Poly)

namespace Handle

variable {ctx : Context} {x y r r' : Handle}

/-- The ciphertext that a handle stands for: the one it holds, or one of
zeros. -/
def standsFor (ctx : Context) (h : Handle) : Ciphertext :=
  match h.state with
  | .zero scale level => .zero (ctx.basisAt level) scale level
  | .encrypted ct => ct

/-- A handle with the ciphertext that it stands for. -/
def materialise (ctx : Context) (h : Handle) : Handle :=
  .ofCiphertext (h.standsFor ctx) h.packing

/-- The message under a secret. An element that is known to be zero is the
zero of its level. -/
def decrypt (ctx : Context) (h : Handle) (key : SecretKey) : Except Scheme.Error Plaintext :=
  match h.state with
  | .zero scale level => .ok ⟨.zero (ctx.basisAt level), scale, level⟩
  | .encrypted ct => ct.decrypt key

/-- The ciphertext, if there is one, has components, and they are reduced. -/
def HasComponents (h : Handle) : Prop :=
  ∀ ct, h.state = .encrypted ct → ct.components ≠ [] ∧ ∀ c ∈ ct.components, c.Reduced

/-- Two handles of one packing and level with one message. Under keys that have
the primes of the level the errors are the same, too; any other key gives the
message of the first wherever it gives that of the second. -/
structure Agrees (ctx : Context) (r r' : Handle) : Prop where
  packing : r.packing = r'.packing
  level : r.level = r'.level
  decryption : ∀ key : SecretKey, key.poly.Reduced →
    (ctx.basisAt r'.level).isInitialOf key.poly.basis = true →
      (r.decrypt ctx key).map (·.poly) = (r'.decrypt ctx key).map (·.poly)
  opened : ∀ (key : SecretKey) (p' : Plaintext), key.poly.Reduced → r'.decrypt ctx key = .ok p' →
    ∃ p, r.decrypt ctx key = .ok p ∧ p.poly = p'.poly

namespace Agrees

theorem refl (ctx : Context) (r : Handle) : Agrees ctx r r :=
  ⟨rfl, rfl, fun _ _ _ => rfl, fun _ p' _ h => ⟨p', h, rfl⟩⟩

/-- Zeros behind the components do not matter. -/
theorem of_padded {b : Basis} (valid : b.Valid) {ct ct' : Ciphertext} (some' : ct.components ≠ [])
    (padded : Padded b ct.components ct'.components) (level : ct.level = ct'.level)
    (packing : Packing) :
    Agrees ctx (.ofCiphertext ct packing) (.ofCiphertext ct' packing) where
  packing := rfl
  level := level
  decryption := fun _ hkey _ => Ciphertext.decrypt_padded valid some' padded hkey
  opened := by
    intro key p' hkey h
    have same := Ciphertext.decrypt_padded valid some' padded hkey
    rw [show ct'.decrypt key = .ok p' from h] at same
    cases hp : ct.decrypt key with
    | error e =>
      rw [hp] at same
      exact nomatch same
    | ok p =>
      rw [hp] at same
      exact ⟨p, hp, Except.ok.inj same⟩

/-- Known zeros agree with ciphertexts of zeros. -/
theorem of_zeros {level : Nat} (valid : (ctx.basisAt level).Valid) (packing : Packing)
    (scale : Binary64) {ct : Ciphertext} (hlevel : ct.level = level) {k : Nat}
    (zeros : ct.components = List.replicate (k + 1) (.zero (ctx.basisAt level))) :
    Agrees ctx (.zero packing scale level) (.ofCiphertext ct packing) where
  packing := rfl
  level := hlevel.symm
  decryption := by
    intro key hkey covers
    subst hlevel
    have opens : decrypt ctx (.ofCiphertext ct packing) key = _ :=
      Ciphertext.decrypt_zeros valid zeros hkey covers
    rw [opens]
    rfl
  opened := by
    intro key p' hkey h
    have covers := Ciphertext.covers_of_decrypt (zeros.trans List.replicate_succ) h
    have opens : decrypt ctx (.ofCiphertext ct packing) key = _ :=
      Ciphertext.decrypt_zeros valid zeros hkey covers
    obtain rfl := Except.ok.inj (opens.symm.trans h)
    exact ⟨_, rfl, rfl⟩

end Agrees

@[simp] theorem scale_standsFor : (x.standsFor ctx).scale = x.scale := by
  unfold standsFor scale
  cases x.state <;> rfl

@[simp] theorem level_standsFor : (x.standsFor ctx).level = x.level := by
  unfold standsFor level
  cases x.state <;> rfl

@[simp] theorem packing_materialise : (x.materialise ctx).packing = x.packing :=
  rfl

@[simp] theorem scale_materialise : (x.materialise ctx).scale = x.scale :=
  scale_standsFor

@[simp] theorem level_materialise : (x.materialise ctx).level = x.level :=
  level_standsFor

/-- So has the ciphertext that a handle stands for. -/
theorem HasComponents.standsFor (sound : ctx.Sound) (h : x.HasComponents) :
    (x.standsFor ctx).components ≠ [] ∧ ∀ c ∈ (x.standsFor ctx).components, c.Reduced := by
  obtain ⟨packing, state⟩ := x
  cases state with
  | zero scale level =>
    have zero := (Ring.zero_ok (sound.valid_basisAt level).pos).1.reduced
    exact ⟨List.cons_ne_nil _ _,
      List.forall_mem_cons.mpr ⟨zero, List.forall_mem_singleton.mpr zero⟩⟩
  | encrypted ct => exact h ct rfl

/-- A handle agrees with the ciphertext that it stands for, also after zeros
have been put behind the components. -/
theorem HasComponents.agrees_of_padded (sound : ctx.Sound) (h : x.HasComponents) {ct : Ciphertext}
    (padded : Padded (ctx.basisAt x.level) (x.standsFor ctx).components ct.components)
    (level : ct.level = x.level) : Agrees ctx x (.ofCiphertext ct x.packing) := by
  have valid := sound.valid_basisAt x.level
  obtain ⟨packing, state⟩ := x
  cases state with
  | zero scale level =>
    obtain ⟨k, eq, -⟩ := padded
    have zeros : ct.components = List.replicate (k + 2) (.zero (ctx.basisAt ct.level)) := by
      rw [eq, level, List.replicate_succ, List.replicate_succ]
      rfl
    subst level
    exact .of_zeros valid packing scale rfl zeros
  | encrypted a => exact .of_padded valid (h a rfl).1 padded level.symm packing

end Handle

namespace Element

open Handle (Agrees HasComponents)

variable {ev : Evaluator} {x y r' : Handle} {p : List Float}

theorem checkOperands_materialise (ctx : Context) :
    checkOperands (x.materialise ctx) (y.materialise ctx) = checkOperands x y := by
  simp only [checkOperands, Handle.packing_materialise, Handle.level_materialise,
    Handle.scale_materialise]

theorem packing_of_checkOperands (h : checkOperands x y = .ok ()) : x.packing = y.packing := by
  unfold checkOperands at h
  split at h
  · exact nomatch h
  · exact not_not.mp ‹_›

/-! ## Sums

The shortcut returns the other operand as it is. The long way puts zeros behind its
components, and the scale is that of the first operand, which is why scales are
compared under a condition. -/

/-- Operands that go together are added by the evaluator. -/
theorem addCipher_materialise {ctx : Context} (checked : checkOperands x y = .ok ()) :
    addCipher ev (x.materialise ctx) (y.materialise ctx) = (do
      let sum ← ev.add (x.standsFor ctx) (y.standsFor ctx)
      return .ofCiphertext sum x.packing) := by
  rw [addCipher, checkOperands_materialise, checked]
  rfl

/-- A sum with an element that is known to be zero is the other one. -/
theorem addCipher_agrees (sound : ev.context.Sound) (hx : x.HasComponents)
    (hy : y.HasComponents)
    (h : addCipher ev (x.materialise ev.context) (y.materialise ev.context) = .ok r') :
    ∃ r, addCipher ev x y = .ok r ∧ r.Agrees ev.context r' ∧
      (x.scale = y.scale → r.scale = r'.scale) := by
  have valid := sound.valid_basisAt
  obtain ⟨_, checked, -⟩ := exists_of_bind_eq_ok h
  rw [checkOperands_materialise] at checked
  have level := level_of_checkOperands checked
  rw [addCipher_materialise checked] at h
  obtain ⟨sum, hsum, h⟩ := exists_of_bind_eq_ok h
  obtain rfl := Except.ok.inj h
  have hsum : ev.add (x.standsFor _) (y.standsFor _) = .ok sum := eq_ok_of_mapError hsum
  -- By which operand is known to be zero. If neither is, both ways are the same.
  obtain ⟨packing, ⟨scale, l⟩ | a⟩ := x
  · obtain ⟨padded, hscale, hlevel⟩ :=
      Evaluator.padded_of_zero_add (valid l) (hy.standsFor sound).2 hsum
    obtain rfl : packing = y.packing := packing_of_checkOperands checked
    obtain rfl : l = y.level := level
    refine ⟨y, ?_, hy.agrees_of_padded sound padded hlevel, fun same => ?_⟩
    · rw [addCipher, checked]
      rfl
    · exact same.symm.trans hscale.symm
  · obtain ⟨_, ⟨scale, l⟩ | b⟩ := y
    · obtain ⟨padded, hscale, hlevel⟩ :=
        Evaluator.padded_of_add_zero (valid l) (hx.standsFor sound).2 hsum
      obtain rfl : a.level = l := level
      refine ⟨_, ?_, hx.agrees_of_padded sound padded hlevel, fun _ => hscale.symm⟩
      rw [addCipher, checked]
      rfl
    · refine ⟨_, ?_, .refl _ _, fun _ => rfl⟩
      rw [addCipher, checked]
      show (ev.add a b).mapError _ >>= _ = _
      rw [show ev.add a b = .ok sum from hsum]
      rfl

/-- Nor does an element change when zero lanes are added to it. -/
theorem addPlain_agrees (sound : ev.context.Sound) (hx : x.HasComponents)
    (zeros : Lanes.isAllZero p = true) {scale : Binary64} {sum : Ciphertext}
    (h : ev.addPlain (x.standsFor ev.context)
      ⟨.zero (ev.context.basisAt x.level), scale, x.level⟩ = .ok sum) (coins : Coins) :
    (addPlain ev x p).run coins = .ok (x, coins) ∧
      x.Agrees ev.context (.ofCiphertext sum x.packing) ∧ x.scale = sum.scale := by
  obtain rfl := Evaluator.eq_of_addPlain_zero (sound.valid_basisAt _) (hx.standsFor sound).2 h
  refine ⟨?_, hx.agrees_of_padded sound (.refl _ _) Handle.level_standsFor,
    Handle.scale_standsFor.symm⟩
  rw [addPlain, if_pos zeros]
  rfl

/-! ## Products

Of a product the shortcut keeps the scale and the level only. The long way ends in
zeros, also through relinearisation. -/

/-- A product succeeds under real packing of operands that go together. -/
theorem multiplyCipher_eq_ok_iff {r : Handle} : multiplyCipher ev x y = .ok r ↔
    (x.packing.isComplex || y.packing.isComplex) = false ∧ checkOperands x y = .ok () ∧
      match x.state, y.state with
      | .encrypted l, .encrypted m =>
        ∃ product, ev.multiply l m = .ok product ∧ r = .ofCiphertext product x.packing
      | _, _ => r = .zero x.packing (x.scale * y.scale) x.level := by
  obtain ⟨packing, state⟩ := x
  obtain ⟨packing', state'⟩ := y
  unfold multiplyCipher
  cases (packing.isComplex || packing'.isComplex) with
  | true => exact ⟨fun h => (nomatch h), fun h => nomatch h.1⟩
  | false =>
    cases checked : checkOperands ⟨packing, state⟩ ⟨packing', state'⟩ with
    | error e => exact ⟨fun h => (nomatch h), fun h => nomatch h.2.1⟩
    | ok u =>
      cases state with
      | zero scale level =>
        exact ⟨fun h => ⟨rfl, rfl, (Except.ok.inj h).symm⟩, fun h => congrArg _ h.2.2.symm⟩
      | encrypted a =>
        cases state' with
        | zero scale level =>
          exact ⟨fun h => ⟨rfl, rfl, (Except.ok.inj h).symm⟩, fun h => congrArg _ h.2.2.symm⟩
        | encrypted b =>
          constructor
          · intro h
            obtain ⟨_, -, h⟩ := exists_of_bind_eq_ok h
            obtain ⟨product, hproduct, h⟩ := exists_of_bind_eq_ok h
            exact ⟨rfl, rfl, product, eq_ok_of_mapError hproduct, (Except.ok.inj h).symm⟩
          · rintro ⟨-, -, product, hproduct, rfl⟩
            show (ev.multiply a b).mapError _ >>= _ = _
            rw [hproduct]
            rfl

/-- A product with an element that is known to be zero is known to be zero. -/
theorem multiplyCipher_agrees (sound : ev.context.Sound)
    (hkey : ∀ d ∈ ev.relinKey.digits, d.1.Reduced ∧ d.2.Reduced) (hx : x.HasComponents)
    (hy : y.HasComponents)
    (h : multiplyCipher ev (x.materialise ev.context) (y.materialise ev.context) = .ok r') :
    ∃ r, multiplyCipher ev x y = .ok r ∧ r.Agrees ev.context r' ∧ r.scale = r'.scale := by
  obtain ⟨real, checked, product, hproduct, rfl⟩ := multiplyCipher_eq_ok_iff.mp h
  rw [checkOperands_materialise] at checked
  have zeros : ∀ {b : Basis}, b.Valid → ((x.standsFor ev.context).components = [.zero b, .zero b] ∨
      (y.standsFor ev.context).components = [.zero b, .zero b]) →
      product = .zero b (x.scale * y.scale) x.level := by
    intro b valid factor
    have eq := Evaluator.multiply_zero valid hkey (hx.standsFor sound).2 (hy.standsFor sound).2
      factor hproduct
    rwa [Handle.scale_standsFor, Handle.scale_standsFor, Handle.level_standsFor] at eq
  have level := level_of_checkOperands checked
  obtain ⟨packing, ⟨scale, l⟩ | a⟩ := x
  · obtain rfl := zeros (sound.valid_basisAt l) (.inl rfl)
    exact ⟨_, multiplyCipher_eq_ok_iff.mpr ⟨real, checked, rfl⟩,
      .of_zeros (k := 1) (sound.valid_basisAt l) packing _ rfl rfl, rfl⟩
  · obtain ⟨packing', ⟨scale, l⟩ | b⟩ := y
    · obtain rfl := zeros (sound.valid_basisAt l) (.inr rfl)
      obtain rfl : a.level = l := level
      exact ⟨_, multiplyCipher_eq_ok_iff.mpr ⟨real, checked, rfl⟩,
        .of_zeros (k := 1) (sound.valid_basisAt _) packing _ rfl rfl, rfl⟩
    · exact ⟨_, multiplyCipher_eq_ok_iff.mpr ⟨real, checked, product, hproduct, rfl⟩,
        .refl _ _, rfl⟩

/-- The product of zero and a plaintext of any kind, or of any element and the
zero polynomial. -/
theorem zero_agrees_multiplyPlain (sound : ev.context.Sound) (hx : x.HasComponents)
    {q : Plaintext} (hq : q.poly.Reduced) (scale : q.scale = plainScale ev.context x.level)
    (factor : x.isZero = true ∨ q.poly = .zero (ev.context.basisAt x.level)) {product : Ciphertext}
    (h : ev.multiplyPlain (x.standsFor ev.context) q = .ok product) :
    Agrees ev.context (.zero x.packing (x.scale * plainScale ev.context x.level) x.level)
        (.ofCiphertext product x.packing) ∧
      x.scale * plainScale ev.context x.level = product.scale := by
  have valid := sound.valid_basisAt x.level
  obtain ⟨some', reduced⟩ := hx.standsFor sound
  have zeros : (∀ c ∈ (x.standsFor ev.context).components,
      c = .zero (ev.context.basisAt x.level)) ∨ q.poly = .zero (ev.context.basisAt x.level) := by
    refine factor.imp_left fun isZero => ?_
    obtain ⟨packing, ⟨σ, l⟩ | a⟩ := x
    · simp [Handle.standsFor, Ciphertext.zero, Handle.level]
    · cases isZero
  obtain rfl := Evaluator.multiplyPlain_zero valid reduced hq zeros h
  rw [Handle.scale_standsFor, scale, Handle.level_standsFor]
  refine ⟨?_, rfl⟩
  obtain ⟨k, size⟩ := Nat.exists_eq_succ_of_ne_zero (List.length_pos_iff.mpr some').ne'
  exact .of_zeros valid x.packing _ rfl (congrArg (List.replicate · _) size)

/-- A product of an element that is known to be zero and plain lanes is known
to be zero. -/
theorem multiplyPlain_agrees (sound : ev.context.Sound) (hx : x.HasComponents)
    (h : multiplyPlain ev (x.materialise ev.context) p = .ok r') :
    ∃ r, multiplyPlain ev x p = .ok r ∧ r.Agrees ev.context r' ∧ r.scale = r'.scale := by
  cases isZero : x.isZero with
  | false =>
    obtain ⟨packing, ⟨scale, l⟩ | a⟩ := x
    · exact nomatch isZero
    · exact ⟨r', h, .refl _ _, rfl⟩
  | true =>
    -- The shortcut never looks at the lanes; without it the zeros are multiplied.
    have shortcut : multiplyPlain ev x p =
        .ok (.zero x.packing (x.scale * plainScale ev.context x.level) x.level) := by
      obtain ⟨packing, ⟨scale, l⟩ | a⟩ := x
      · rfl
      · exact nomatch isZero
    refine ⟨_, shortcut, ?_⟩
    have h : (if Lanes.isAllZero p then
        Except.ok (.zero x.packing ((x.materialise ev.context).scale *
          plainScale ev.context (x.materialise ev.context).level) (x.materialise ev.context).level)
      else do
        let lanes ← factorLanes x.packing p
        let encoded ← ev.context.encode lanes .real
          (plainScale ev.context (x.materialise ev.context).level) (x.standsFor ev.context).level
        let product ← ev.multiplyPlain (x.standsFor ev.context) encoded
        return Handle.ofCiphertext product x.packing) = .ok r' := h
    rw [Handle.level_materialise, Handle.scale_materialise, Handle.level_standsFor] at h
    split at h
    · obtain rfl := Except.ok.inj h
      exact ⟨.refl _ _, rfl⟩
    · obtain ⟨lanes, -, h⟩ := exists_of_bind_eq_ok h
      obtain ⟨encoded, hencoded, h⟩ := exists_of_bind_eq_ok h
      obtain ⟨product, hproduct, h⟩ := exists_of_bind_eq_ok h
      obtain rfl := Except.ok.inj h
      obtain ⟨wellFormed, scale, -⟩ :=
        Context.wellFormed_of_encode sound (eq_ok_of_mapError hencoded)
      exact zero_agrees_multiplyPlain sound hx wellFormed.poly.reduced scale (.inl isZero)
        (eq_ok_of_mapError hproduct)

/-- So is a product with zero lanes. -/
theorem multiplyPlain_zeros_agrees (sound : ev.context.Sound) (hx : x.HasComponents)
    (zeros : Lanes.isAllZero p = true) {product : Ciphertext}
    (h : ev.multiplyPlain (x.standsFor ev.context)
      ⟨.zero (ev.context.basisAt x.level), plainScale ev.context x.level, x.level⟩ = .ok product) :
    ∃ r, multiplyPlain ev x p = .ok r ∧
      r.Agrees ev.context (.ofCiphertext product x.packing) ∧ r.scale = product.scale := by
  have shortcut : multiplyPlain ev x p =
      .ok (.zero x.packing (x.scale * plainScale ev.context x.level) x.level) := by
    obtain ⟨packing, ⟨scale, l⟩ | a⟩ := x
    · rfl
    · exact if_pos zeros
  have zero := (Ring.zero_ok (sound.valid_basisAt x.level).pos).1.reduced
  exact ⟨_, shortcut, zero_agrees_multiplyPlain sound hx zero rfl (.inr rfl) h⟩

/-! ## Rescaling

The scale is divided and the level goes down in either case. -/

/-- Rescaling an element that is known to be zero keeps it so. -/
theorem rescaleHandle_agrees (sound : ev.context.Sound) (hx : x.HasComponents)
    (h : rescaleHandle ev (x.materialise ev.context) = .ok r') :
    ∃ r, rescaleHandle ev x = .ok r ∧ r.Agrees ev.context r' ∧ r.scale = r'.scale := by
  obtain ⟨ct, hct, h⟩ := exists_of_bind_eq_ok h
  obtain rfl := Except.ok.inj h
  have hct : ev.rescale (x.standsFor _) = .ok ct := eq_ok_of_mapError hct
  obtain ⟨packing, ⟨scale, l⟩ | a⟩ := x
  · obtain ⟨q, modulus, rfl⟩ := Evaluator.rescale_zero hct
    refine ⟨.zero packing (scale / .ofNat q) (l - 1), ?_, ?_, rfl⟩
    · simp only [rescaleHandle, modulus]
    · exact .of_zeros (k := 1) (sound.valid_basisAt _) packing _ rfl rfl
  · refine ⟨_, ?_, .refl _ _, rfl⟩
    show (ev.rescale a).mapError _ >>= _ = _
    rw [show ev.rescale a = .ok ct from hct]
    rfl

/-! ## All shortcuts

For plain lanes the long way goes through an encoding. Lanes are tested for zeros
before anything is encoded, and what is compared with is the polynomial that they
would be encoded to. -/

/-- The lanes that zero lanes are multiplied as are zero. -/
theorem isAllZero_factorLanes {packing : Packing} {lanes : List Float}
    (zeros : Lanes.isAllZero p = true) (h : factorLanes packing p = .ok lanes) :
    Lanes.isAllZero lanes = true := by
  cases packing with
  | real =>
    obtain rfl := Except.ok.inj h
    exact zeros
  | complex =>
    unfold factorLanes at h
    cases p with
    | nil => exact nomatch h
    | cons x rest =>
      simp only [Lanes.isAllZero, List.all_cons, Bool.and_eq_true] at zeros
      simp only [Lanes.uniform?] at h
      split at h
      · rename_i same
        split at same
        · obtain rfl := Option.some.inj same
          obtain rfl := Except.ok.inj h
          simp [Lanes.isAllZero, zeros.1]
        · exact nomatch same
      · exact nomatch h

/-- The short way gives a result wherever the long way does, one that agrees
with it; under a condition on the scales of the operands also in its scale. -/
def IsShortcut (ctx : Context) (scales : Prop) (short long : Except Error Handle) : Prop :=
  ∀ r', long = .ok r' → ∃ r, short = .ok r ∧ r.Agrees ctx r' ∧ (scales → r.scale = r'.scale)

/-- What is done for elements that are known to be zero, and for zero lanes,
agrees with what is done for ciphertexts of zeros and for the polynomial that
the lanes are encoded to, the zero polynomial. -/
theorem zeros_isShortcut [Primitives] {params : Params} {ev : Evaluator}
    (hctx : Context.ofParams params = .ok ev.context)
    (hkey : ∀ d ∈ ev.relinKey.digits, d.1.Reduced ∧ d.2.Reduced) :
    (∀ x y : Handle, x.HasComponents → y.HasComponents →
      IsShortcut ev.context (x.scale = y.scale) (addCipher ev x y)
        (addCipher ev (x.materialise ev.context) (y.materialise ev.context)) ∧
      IsShortcut ev.context True (multiplyCipher ev x y)
        (multiplyCipher ev (x.materialise ev.context) (y.materialise ev.context))) ∧
    ∀ x : Handle, x.HasComponents →
      IsShortcut ev.context True (rescaleHandle ev x)
        (rescaleHandle ev (x.materialise ev.context)) ∧
      ∀ p : List Float,
        IsShortcut ev.context True (multiplyPlain ev x p)
          (multiplyPlain ev (x.materialise ev.context) p) ∧
        (Lanes.isAllZero p = true →
          (∀ encoded, ev.context.encode p x.packing x.scale x.level = .ok encoded →
            encoded = ⟨.zero (ev.context.basisAt x.level), x.scale, x.level⟩ ∧
            ∀ coins, IsShortcut ev.context True ((addPlain ev x p).run' coins) (do
              let sum ← ev.addPlain (x.standsFor ev.context) encoded
              return .ofCiphertext sum x.packing)) ∧
          ∀ lanes encoded, factorLanes x.packing p = .ok lanes →
            ev.context.encode lanes .real (plainScale ev.context x.level) x.level = .ok encoded →
            encoded = ⟨.zero (ev.context.basisAt x.level), plainScale ev.context x.level, x.level⟩ ∧
            IsShortcut ev.context True (multiplyPlain ev x p) (do
              let product ← ev.multiplyPlain (x.standsFor ev.context) encoded
              return .ofCiphertext product x.packing)) := by
  have sound := Context.sound_of_ofParams hctx
  refine ⟨fun x y hx hy => ⟨fun r' h => addCipher_agrees sound hx hy h, fun r' h => ?_⟩,
    fun x hx => ⟨fun r' h => ?_, fun p => ⟨fun r' h => ?_, fun zeros => ⟨?_, ?_⟩⟩⟩⟩
  · obtain ⟨r, short, agrees, scale⟩ := multiplyCipher_agrees sound hkey hx hy h
    exact ⟨r, short, agrees, fun _ => scale⟩
  · obtain ⟨r, short, agrees, scale⟩ := rescaleHandle_agrees sound hx h
    exact ⟨r, short, agrees, fun _ => scale⟩
  · obtain ⟨r, short, agrees, scale⟩ := multiplyPlain_agrees sound hx h
    exact ⟨r, short, agrees, fun _ => scale⟩
  · intro encoded hencoded
    obtain rfl := Context.encode_zeros zeros hencoded
    refine ⟨rfl, fun coins r' h => ?_⟩
    obtain ⟨sum, hsum, h⟩ := exists_of_bind_eq_ok h
    obtain rfl := Except.ok.inj h
    obtain ⟨short, agrees, scale⟩ := addPlain_agrees sound hx zeros (eq_ok_of_mapError hsum) coins
    refine ⟨x, ?_, agrees, fun _ => scale⟩
    rw [StateT.run'_eq, short]
    rfl
  · intro lanes encoded hlanes hencoded
    obtain rfl := Context.encode_zeros (isAllZero_factorLanes zeros hlanes) hencoded
    refine ⟨rfl, fun r' h => ?_⟩
    obtain ⟨product, hproduct, h⟩ := exists_of_bind_eq_ok h
    obtain rfl := Except.ok.inj h
    obtain ⟨r, short, agrees, scale⟩ :=
      multiplyPlain_zeros_agrees sound hx zeros (eq_ok_of_mapError hproduct)
    exact ⟨r, short, agrees, fun _ => scale⟩

end Element

namespace Evaluator.Tiny

open Element

/-- A known zero, of the scale and the level of the ciphertexts. -/
def zero : Handle :=
  .zero .real (.ofFloat 16) 0

/-- A ciphertext as an element. -/
def held (c0 c1 : List Int) : Handle :=
  .ofCiphertext (ciphertext c0 c1) .real

/-- A ciphertext without components. -/
def bare : Handle :=
  .ofCiphertext ⟨[], .ofFloat 16, 0⟩ .real

theorem hasComponents_zero : zero.HasComponents :=
  fun _ h => nomatch h

theorem hasComponents_held {c0 c1 : List Int} (h0 : c0.length = 4) (h1 : c1.length = 4) :
    (held c0 c1).HasComponents := by
  intro ct h
  obtain rfl := CipherState.encrypted.inj h
  exact ⟨List.cons_ne_nil _ _, fun c hc => ((wellFormed h0 h1).components c hc).reduced⟩

theorem reduced_relinKey :
    ∀ d ∈ evaluator.relinKey.digits, d.1.Reduced ∧ d.2.Reduced := by
  obtain ⟨key, hkey, -, hides⟩ :=
    RelinKey.ofSamples_ok Context.sound_tiny.valid isOver_secret areSamples
  obtain rfl := Except.ok.inj (hkey.symm.trans ofSamples)
  intro d hd
  obtain ⟨i, hi⟩ := List.mem_iff_getElem?.mp hd
  obtain ⟨first, second⟩ := (hides i d hi).isOver
  exact ⟨first.reduced, second.reduced⟩

attribute [local instance] Primitives.coarse

/-- A sum and a product with a known zero. -/
theorem zeros_isShortcut_tiny :
    Context.ofParams Context.tiny.params = .ok evaluator.context ∧
    (∀ d ∈ evaluator.relinKey.digits, d.1.Reduced ∧ d.2.Reduced) ∧
    zero.HasComponents ∧ (held [1, 2, 3, 4] [100, 5, 6, 7]).HasComponents ∧
    (∃ r r', addCipher evaluator (zero.materialise Context.tiny)
          ((held [1, 2, 3, 4] [100, 5, 6, 7]).materialise Context.tiny) = .ok r' ∧
      addCipher evaluator zero (held [1, 2, 3, 4] [100, 5, 6, 7]) = .ok r ∧
      r.Agrees Context.tiny r' ∧ r.scale = r'.scale) ∧
    ∃ r r', multiplyCipher evaluator (zero.materialise Context.tiny)
          ((held [1, 2, 3, 4] [100, 5, 6, 7]).materialise Context.tiny) = .ok r' ∧
      multiplyCipher evaluator zero (held [1, 2, 3, 4] [100, 5, 6, 7]) = .ok r ∧
      r.Agrees Context.tiny r' ∧ r.scale = r'.scale := by
  have components : (held [1, 2, 3, 4] [100, 5, 6, 7]).HasComponents := hasComponents_held rfl rfl
  obtain ⟨add, multiply⟩ := (zeros_isShortcut Context.ofParams_tiny reduced_relinKey).1 zero
    (held [1, 2, 3, 4] [100, 5, 6, 7]) hasComponents_zero components
  have sums : (addCipher evaluator (zero.materialise Context.tiny)
      ((held [1, 2, 3, 4] [100, 5, 6, 7]).materialise Context.tiny)).toOption.isSome = true := by
    decide +kernel
  have products : (multiplyCipher evaluator (zero.materialise Context.tiny)
      ((held [1, 2, 3, 4] [100, 5, 6, 7]).materialise Context.tiny)).toOption.isSome = true := by
    decide +kernel
  obtain ⟨sum, hsum⟩ := Option.isSome_iff_exists.mp sums
  obtain ⟨product, hproduct⟩ := Option.isSome_iff_exists.mp products
  obtain ⟨r, short, agrees, scale⟩ := add sum (eq_ok_of_toOption hsum)
  obtain ⟨m, short', agrees', scale'⟩ := multiply product (eq_ok_of_toOption hproduct)
  exact ⟨Context.ofParams_tiny, reduced_relinKey, hasComponents_zero, components,
    ⟨r, sum, eq_ok_of_toOption hsum, short, agrees, scale rfl⟩,
    m, product, eq_ok_of_toOption hproduct, short', agrees', scale' trivial⟩

/-- The sum of a known zero and a ciphertext without components is refused by
decryption. The sum of two zeros and no components is not. -/
theorem addCipher_bare :
    zero.level < Context.tiny.primes.length ∧ bare.level < Context.tiny.primes.length ∧
    zero.scale = bare.scale ∧ secret.poly.IsOver Context.tiny.topBasis ∧
    addCipher evaluator zero bare = .ok bare ∧
    bare.decrypt Context.tiny secret = .error (.unsupportedSize 0) ∧
    ∃ r', addCipher evaluator (zero.materialise Context.tiny) (bare.materialise Context.tiny) =
        .ok r' ∧
      r'.decrypt Context.tiny secret = .ok ⟨.zero (Context.tiny.basisAt 0), .ofFloat 16, 0⟩ := by
  have scale : Scheme.scalesMatch (Binary64.ofFloat 16) (Binary64.ofFloat 16) = true := by
    decide +kernel
  have checked : checkOperands zero bare = .ok () := by
    show (Scheme.checkScale (Binary64.ofFloat 16) (Binary64.ofFloat 16)).mapError Error.scheme = _
    rw [Scheme.checkScale, if_pos scale]
    rfl
  have sum : evaluator.add (zero.standsFor Context.tiny) (bare.standsFor Context.tiny) =
      .ok (.zero (Context.tiny.basisAt 0) (.ofFloat 16) 0) := by
    show Scheme.checkScale (Binary64.ofFloat 16) (Binary64.ofFloat 16) >>= _ = _
    rw [Scheme.checkScale, if_pos scale]
    rfl
  have covers : (Context.tiny.basisAt 0).isInitialOf secret.poly.basis = true :=
    Context.isInitialOf_topBasis Context.tiny 0
  have decrypts : (Ciphertext.zero (Context.tiny.basisAt 0) (.ofFloat 16) 0).decrypt secret =
      .ok ⟨.zero (Context.tiny.basisAt 0), .ofFloat 16, 0⟩ :=
    Ciphertext.decrypt_zeros (k := 1) (Context.sound_tiny.valid_basisAt 0) rfl
      isOver_secret.reduced covers
  refine ⟨Nat.zero_lt_two, Nat.zero_lt_two, rfl, isOver_secret, ?_, rfl,
    .ofCiphertext (.zero (Context.tiny.basisAt 0) (.ofFloat 16) 0) .real, ?_, decrypts⟩
  · rw [addCipher, checked]
    rfl
  · rw [addCipher_materialise checked, sum]
    rfl

end Evaluator.Tiny

end CipherFlow
