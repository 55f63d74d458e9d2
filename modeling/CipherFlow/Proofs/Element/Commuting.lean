import CipherFlow.Proofs.Element.Returning
import CipherFlow.Proofs.Element.Zeros
import CipherFlow.Proofs.Number.Commuting

/-!
# Sums and products in either order

The sum and the product of two elements are the same in either order, down to
the residues of all components: the operands are added and multiplied in
either order channel by channel, and relinearising starts from the same three
elements. What can differ is the scale of a sum of two encrypted elements,
which is that of one of them.

`operands_commute` is the statement for elements of all kinds, with what has to hold
of the scales.

How the proof goes. It goes up from the ring. Channels commute, hence components
(`addComponents_comm`, `mul_comm_ok`), hence ciphertexts (`add_swap`,
`multiply_swap`). For encrypted elements there are the known zeros besides, so they
are compared case by case up to their scales (`addCipher_swaps`,
`multiplyCipher_swaps`); floating-point numbers commute for plain lanes. `Commutes`
collects what is left for two elements of any kind, the coins included.
-/

namespace CipherFlow

open CipherFlow.Element (Compute)
open CipherFlow.Ring (Basis Poly)

/-! ## Ring elements -/

namespace Ring

theorem Channel.add_comm (q : Nat) (x y : List Nat) : Channel.add q x y = Channel.add q y x := by
  have one (a b : Nat) : Modular.add a b q = Modular.add b a q := by
    simp [Modular.add, Nat.add_comm]
  rw [Channel.add, Channel.add, List.zipWith_comm]
  simp only [one]

/-- Elements of two bases have no sum in either order. -/
theorem Poly.add_comm (p p' : Poly) : p.add p' = p'.add p := by
  obtain ⟨basis, x⟩ := p
  obtain ⟨basis', y⟩ := p'
  by_cases same : basis = basis'
  · subst same
    have channels : List.zipWith (fun q cs => Channel.add q cs.1 cs.2) basis.primes (x.zip y) =
        List.zipWith (fun q cs => Channel.add q cs.1 cs.2) basis.primes (y.zip x) := by
      rw [← List.zip_swap x y, List.zipWith_map_right]
      simp only [Prod.fst_swap, Prod.snd_swap, Channel.add_comm]
    simp [Poly.add, zipChannels, channels]
  · simp [Poly.add, zipChannels, same, Ne.symm same]

/-- Elements over one basis have a product, the same in either order. -/
theorem mul_comm_ok {B : Basis} {p p' : Poly} (valid : B.Valid) (hp : p.IsOver B)
    (hp' : p'.IsOver B) : ∃ r, p.mul p' = .ok r ∧ p'.mul p = .ok r := by
  obtain ⟨r, hr, isOver, image⟩ := mul_ok valid.degree_ne hp hp'
  obtain ⟨r', hr', isOver', image'⟩ := mul_ok valid.degree_ne hp' hp
  have same : r = r' := by
    refine eq_of_image_eq valid.degree_ne valid.one_lt isOver isOver' ?_
    rw [image B B.isInitialOf_self, image' B B.isInitialOf_self, mul_comm]
  exact ⟨r, hr, same ▸ hr'⟩

end Ring

/-! ## Ciphertexts -/

namespace Evaluator

variable {ctx : Context} {ev : Evaluator} {a b r : Ciphertext} {x y : List Poly}

theorem addComponents_comm (same : x.length = y.length) :
    addComponents x y = addComponents y x := by
  induction x generalizing y with
  | nil => rw [List.length_eq_zero_iff.mp same.symm]
  | cons c x ih =>
    cases y with
    | nil => exact nomatch same
    | cons d y =>
      rw [addComponents, addComponents, Ring.Poly.add_comm, ih (Nat.succ.inj same)]

theorem checkLevel_ok {level level' : Nat} (h : level = level') :
    Scheme.checkLevel level level' = .ok () :=
  if_pos h

theorem checkScale_ok {scale scale' : Float} (h : Scheme.scalesMatch scale scale' = true) :
    Scheme.checkScale scale scale' = .ok () :=
  if_pos h

/-- A sum in the other order has the same components, and the scale of the
other operand. -/
theorem add_swap (h : ev.add a b = .ok r) : ev.add b a = .ok ⟨r.components, b.scale, r.level⟩ := by
  obtain ⟨level, scales⟩ := checked_of_add h
  obtain ⟨-, hlevel, sum⟩ := add_eq_ok h
  have components : (if a.size ≤ b.size then addComponents b.components a.components
      else addComponents a.components b.components) = .ok r.components := by
    rcases sum with ⟨le, sum⟩ | ⟨lt, sum⟩
    · split
      · rename_i le'
        rw [addComponents_comm (Nat.le_antisymm le le')]
        exact sum
      · exact sum
    · rw [if_pos lt.le]
      exact sum
  rw [Scheme.scalesMatch_comm] at scales
  rw [add, checkLevel_ok level.symm, checkScale_ok scales]
  simp only [bind, Except.bind]
  split at components
  · rw [if_pos ‹_›, components, hlevel, level]
    rfl
  · rw [if_neg ‹_›, components, hlevel, level]
    rfl

/-- What is left of a product when the products of the components are known. -/
theorem multiply_of_products {a0 a1 b0 b1 d0 cross cross' d2 : Poly} {σ τ : Binary64}
    (level : Nat) (scales : Scheme.scalesMatch σ τ = true) (h0 : a0.mul b0 = .ok d0)
    (h1 : a0.mul b1 = .ok cross) (h1' : a1.mul b0 = .ok cross') (h2 : a1.mul b1 = .ok d2) :
    ev.multiply ⟨[a0, a1], σ, level⟩ ⟨[b0, b1], τ, level⟩ = (do
      let d1 ← cross.add cross'
      let (c0, c1) ← ev.relinearise d0 d1 d2
      return ⟨[c0, c1], σ * τ, level⟩) := by
  rw [multiply, checkLevel_ok rfl, checkScale_ok scales]
  simp only [h0, h1, h1', h2]
  rfl

/-- A product in the other order is the same. -/
theorem multiply_swap (sound : ctx.Sound) (ha : a.WellFormed ctx) (hb : b.WellFormed ctx)
    (h : ev.multiply a b = .ok r) : ev.multiply b a = .ok r := by
  obtain ⟨components, σ, level⟩ := a
  obtain ⟨components', τ, level'⟩ := b
  obtain ⟨_, level_eq, rest⟩ := exists_of_bind_eq_ok h
  obtain ⟨_, scales, rest⟩ := exists_of_bind_eq_ok rest
  obtain rfl : level = level' := eq_of_checkLevel level_eq
  have scales := scalesMatch_of_checkScale scales
  have scales' := (Scheme.scalesMatch_comm σ τ).symm.trans scales
  split at rest
  · rename_i a0 a1 b0 b1 pair pair'
    obtain rfl : components = [a0, a1] := pair
    obtain rfl : components' = [b0, b1] := pair'
    have valid := sound.valid_basisAt level
    obtain ⟨over0, over1⟩ := List.forall_mem_cons.mp ha.components
    obtain ⟨over0', over1'⟩ := List.forall_mem_cons.mp hb.components
    have over1 := List.forall_mem_singleton.mp over1
    have over1' := List.forall_mem_singleton.mp over1'
    obtain ⟨d0, h0, h0'⟩ := Ring.mul_comm_ok valid over0 over0'
    obtain ⟨cross, h1, h1'⟩ := Ring.mul_comm_ok valid over0 over1'
    obtain ⟨cross', h2, h2'⟩ := Ring.mul_comm_ok valid over1 over0'
    obtain ⟨d2, h3, h3'⟩ := Ring.mul_comm_ok valid over1 over1'
    obtain ⟨numberL, numberR⟩ := Scheme.not_isNaN_of_scalesMatch scales
    rw [multiply_of_products level scales h0 h1 h2 h3, Ring.Poly.add_comm,
      Binary64.mul_comm_of_not_isNaN numberL numberR] at h
    rwa [multiply_of_products level scales' h0' h2' h1' h3']
  · exact nomatch rest

end Evaluator

/-! ## Plain lanes -/

theorem Lanes.zipWith_swap {α γ : Type} {f : α → α → γ} (comm : ∀ x y, f x y = f y x)
    {xs ys : List α} {zs : List γ} (h : zipWith f xs ys = .ok zs) : zipWith f ys xs = .ok zs := by
  unfold zipWith at h ⊢
  by_cases same : xs.length = ys.length
  · rw [if_pos same, List.zipWith_comm] at h
    rw [if_pos same.symm]
    simpa only [comm] using h
  · rw [if_neg same] at h
    rw [if_neg (Ne.symm same)]
    split at h
    · rename_i x y rest
      cases rest with
      | nil => exact absurd rfl same
      | cons y' rest =>
        have flip : (fun z => f z x) = f x := funext fun z => comm z x
        simpa only [flip] using h
    · rename_i x rest y _
      cases rest with
      | nil => exact absurd rfl same
      | cons x' rest =>
        have flip : (fun z => f z y) = f y := funext fun z => comm z y
        simpa only [flip] using h
    · exact nomatch h

/-! ## Encrypted elements -/

/-- Encrypted elements that are the same but for the scale, and in their scales
as numbers. -/
structure Handle.Alike (r r' : Handle) : Prop where
  packing : r.packing = r'.packing
  level : r.level = r'.level
  components : r.ciphertext?.map (·.components) = r'.ciphertext?.map (·.components)
  scale : Agree r.scale r'.scale

theorem Handle.Alike.refl (r : Handle) : r.Alike r :=
  ⟨rfl, rfl, rfl, .refl _⟩

namespace Element

variable {ctx : Context} {ev : Evaluator} {x y : Handle} {a b : Element} {c : Coins}

theorem checkOperands_eq_ok_iff : checkOperands x y = .ok () ↔
    x.packing = y.packing ∧ x.level = y.level ∧ Scheme.scalesMatch x.scale y.scale = true := by
  constructor
  · intro h
    refine ⟨packing_of_checkOperands h, level_of_checkOperands h, ?_⟩
    rw [checkOperands, if_neg (not_not_intro (packing_of_checkOperands h))] at h
    obtain ⟨_, -, scales⟩ := exists_of_bind_eq_ok h
    exact Evaluator.scalesMatch_of_checkScale (eq_ok_of_mapError scales)
  · rintro ⟨packing, level, scales⟩
    rw [checkOperands, if_neg (not_not_intro packing), Evaluator.checkLevel_ok level,
      Evaluator.checkScale_ok scales]
    rfl

theorem checkOperands_swap (h : checkOperands x y = .ok ()) : checkOperands y x = .ok () := by
  obtain ⟨packing, level, scales⟩ := checkOperands_eq_ok_iff.mp h
  rw [Scheme.scalesMatch_comm] at scales
  exact checkOperands_eq_ok_iff.mpr ⟨packing.symm, level.symm, scales⟩

/-- Where an operation on encrypted elements succeeds it does so in the other
order, with a result that is alike if the scales agree and the same if they
are. -/
def Swaps (f : Handle → Handle → Except Error Handle) (x y : Handle) : Prop :=
  ∀ r, f x y = .ok r → ∃ r', f y x = .ok r' ∧
    (CipherFlow.Agree x.scale y.scale → r.Alike r') ∧ (x.scale = y.scale → r = r')

theorem addCipher_swaps (ev : Evaluator) (x y : Handle) : Swaps (addCipher ev) x y := by
  intro r h
  obtain ⟨_, checked, h⟩ := exists_of_bind_eq_ok h
  obtain ⟨packing, level, -⟩ := checkOperands_eq_ok_iff.mp checked
  rw [addCipher, checkOperands_swap checked]
  -- Known zeros on either side, or on both, are added without the evaluator.
  obtain ⟨px, ⟨σ, l⟩ | ct⟩ := x
  · obtain ⟨py, ⟨τ, l'⟩ | ct'⟩ := y
    · obtain rfl : _ = r := Except.ok.inj h
      obtain rfl : px = py := packing
      obtain rfl : l = l' := level
      refine ⟨_, rfl, fun agree => ⟨rfl, rfl, rfl, agree.symm⟩, fun same => ?_⟩
      rw [show σ = τ from same]
    · obtain rfl : _ = r := Except.ok.inj h
      exact ⟨_, rfl, fun _ => .refl _, fun _ => rfl⟩
  · obtain ⟨py, ⟨τ, l'⟩ | ct'⟩ := y
    · obtain rfl : _ = r := Except.ok.inj h
      exact ⟨_, rfl, fun _ => .refl _, fun _ => rfl⟩
    · obtain ⟨sum, hsum, h⟩ := exists_of_bind_eq_ok h
      obtain rfl := Except.ok.inj h
      have hsum : ev.add ct ct' = .ok sum := eq_ok_of_mapError hsum
      obtain ⟨scale, -, -⟩ := Evaluator.add_eq_ok hsum
      refine ⟨.ofCiphertext ⟨sum.components, ct'.scale, sum.level⟩ py, ?_, fun agree => ?_,
        fun same => ?_⟩
      · show (ev.add ct' ct).mapError _ >>= _ = _
        rw [Evaluator.add_swap hsum]
        rfl
      · have agree : CipherFlow.Agree sum.scale ct'.scale := by
          rw [scale]
          exact agree
        exact ⟨packing, rfl, rfl, agree⟩
      · have equal : ct'.scale = sum.scale := (scale.trans same).symm
        obtain rfl : px = py := packing
        rw [equal]

theorem multiplyCipher_swaps (sound : ctx.Sound) (ev : Evaluator) (hx : x.Proper ctx)
    (hy : y.Proper ctx) : Swaps (multiplyCipher ev) x y := by
  intro r h
  refine ⟨r, ?_, fun _ => .refl r, fun _ => rfl⟩
  obtain ⟨real, checked, product⟩ := multiplyCipher_eq_ok_iff.mp h
  obtain ⟨packing, level, scales⟩ := checkOperands_eq_ok_iff.mp checked
  obtain ⟨numberX, numberY⟩ := Scheme.not_isNaN_of_scalesMatch scales
  have zeros : Handle.zero x.packing (x.scale * y.scale) x.level =
      .zero y.packing (y.scale * x.scale) y.level := by
    rw [packing, level, Binary64.mul_comm_of_not_isNaN numberX numberY]
  rw [Bool.or_comm] at real
  refine multiplyCipher_eq_ok_iff.mpr ⟨real, checkOperands_swap checked, ?_⟩
  obtain ⟨px, ⟨σ, l⟩ | ct⟩ := x
  · obtain ⟨py, ⟨τ, l'⟩ | ct'⟩ := y <;> exact product.trans zeros
  · obtain ⟨py, ⟨τ, l'⟩ | ct'⟩ := y
    · exact product.trans zeros
    · obtain ⟨p, hp, rfl⟩ := product
      obtain rfl : px = py := packing
      exact ⟨p, Evaluator.multiply_swap sound (hx ct rfl).wellFormed (hy ct' rfl).wellFormed hp,
        rfl⟩

/-! ## Elements of both kinds -/

/-- Elements that are the same but for the scale, and in their scales as
numbers. -/
def Alike : Element → Element → Prop
  | .plain xs, .plain ys => xs = ys
  | .cipher x, .cipher y => x.Alike y
  | _, _ => False

/-- A relation of the scales of two operands, if both are encrypted. -/
def Scales (R : Binary64 → Binary64 → Prop) (a b : Element) : Prop :=
  ∀ x y, a = .cipher x → b = .cipher y → R x.scale y.scale

/-- Operands that can be swapped. Either order succeeds if the other one does,
and leaves the same coins; the results are alike if the scales of encrypted
operands are equal as numbers, and equal if these scales are. -/
structure Commutes (op : Element → Element → Compute Element) (a b : Element) (c : Coins) :
    Prop where
  succeeds : (∃ r, (op a b).run c = .ok r) ↔ ∃ r, (op b a).run c = .ok r
  alike : Scales (CipherFlow.Agree · ·) a b → ∀ r c', (op a b).run c = .ok (r, c') →
    ∃ r', (op b a).run c = .ok (r', c') ∧ r.Alike r'
  equal : Scales (· = ·) a b → ∀ r c', (op a b).run c = .ok (r, c') →
    (op b a).run c = .ok (r, c')

variable {op : Element → Element → Compute Element}

theorem Alike.refl (a : Element) : a.Alike a := by
  cases a with
  | plain xs => exact Eq.refl xs
  | cipher h => exact Handle.Alike.refl h

/-- Operands that can be swapped whatever their scales. -/
theorem Commutes.of_swap (h : ∀ r, (op a b).run c = .ok r → (op b a).run c = .ok r)
    (h' : ∀ r, (op b a).run c = .ok r → (op a b).run c = .ok r) : Commutes op a b c where
  succeeds := ⟨fun ⟨r, hr⟩ => ⟨r, h r hr⟩, fun ⟨r, hr⟩ => ⟨r, h' r hr⟩⟩
  alike := fun _ r _ hr => ⟨r, h _ hr, .refl r⟩
  equal := fun _ _ _ hr => h _ hr

theorem Commutes.of_eq (h : op a b = op b a) : Commutes op a b c :=
  .of_swap (fun _ => h ▸ id) fun _ => h ▸ id

/-- Plain lanes are combined in either order. -/
theorem lanes_swap {f : Float → Float → Float} (comm : ∀ x y, f x y = f y x)
    {xs ys : List Float} {r : Element × Coins}
    (h : (do return .plain (← Lanes.zipWith f xs ys) : Compute Element).run c = .ok r) :
    (do return .plain (← Lanes.zipWith f ys xs) : Compute Element).run c = .ok r := by
  cases eq : Lanes.zipWith f xs ys with
  | error e =>
    rw [eq] at h
    exact nomatch h
  | ok zs =>
    rw [eq] at h
    rwa [Lanes.zipWith_swap comm eq]

/-- A step without coins gives an encrypted element. -/
theorem run_cipher_eq_ok_iff {m : Except Error Handle} {z : Element} {c' : Coins} :
    (do return .cipher (← m) : Compute Element).run c = .ok (z, c') ↔
      ∃ r, m = .ok r ∧ z = .cipher r ∧ c' = c := by
  cases m with
  | error e => exact ⟨fun h => (nomatch h), fun ⟨_, h, _⟩ => nomatch h⟩
  | ok r =>
    constructor
    · intro h
      obtain ⟨rfl, rfl⟩ := Prod.mk.inj (Except.ok.inj h)
      exact ⟨r, rfl, rfl, rfl⟩
    · rintro ⟨_, eq, rfl, rfl⟩
      obtain rfl := Except.ok.inj eq
      rfl

/-- An operation on encrypted elements, as one on elements of both kinds. -/
theorem Commutes.of_swaps {f : Handle → Handle → Except Error Handle}
    (cipher : ∀ x y, op (.cipher x) (.cipher y) = do return .cipher (← f x y))
    (left : Swaps f x y) (right : Swaps f y x) : Commutes op (.cipher x) (.cipher y) c := by
  have order {x y : Handle} (swaps : Swaps f x y) {z : Element} {c' : Coins}
      (h : (op (.cipher x) (.cipher y)).run c = .ok (z, c')) :
      ∃ r r', z = .cipher r ∧ (op (.cipher y) (.cipher x)).run c = .ok (.cipher r', c') ∧
        (CipherFlow.Agree x.scale y.scale → r.Alike r') ∧ (x.scale = y.scale → r = r') := by
    rw [cipher] at h ⊢
    obtain ⟨r, hr, rfl, rfl⟩ := run_cipher_eq_ok_iff.mp h
    obtain ⟨r', hr', same⟩ := swaps r hr
    exact ⟨r, r', rfl, run_cipher_eq_ok_iff.mpr ⟨r', hr', rfl, rfl⟩, same⟩
  refine ⟨⟨?_, ?_⟩, ?_, ?_⟩
  · rintro ⟨⟨z, c'⟩, h⟩
    obtain ⟨_, _, -, swapped, -⟩ := order left h
    exact ⟨_, swapped⟩
  · rintro ⟨⟨z, c'⟩, h⟩
    obtain ⟨_, _, -, swapped, -⟩ := order right h
    exact ⟨_, swapped⟩
  · intro scales z c' h
    obtain ⟨r, r', rfl, swapped, alike, -⟩ := order left h
    exact ⟨.cipher r', swapped, alike (scales x y rfl rfl)⟩
  · intro scales z c' h
    obtain ⟨r, r', rfl, swapped, -, same⟩ := order left h
    rwa [same (scales x y rfl rfl)]

theorem add_commutes (ev : Evaluator) (a b : Element) (c : Coins) : Commutes (add ev) a b c := by
  cases a with
  | plain xs =>
    cases b with
    | plain ys =>
      exact .of_swap (fun _ => lanes_swap float_add_comm) fun _ => lanes_swap float_add_comm
    | cipher y => exact .of_eq rfl
  | cipher x =>
    cases b with
    | plain ys => exact .of_eq rfl
    | cipher y =>
      exact .of_swaps (fun _ _ => rfl) (addCipher_swaps ev x y) (addCipher_swaps ev y x)

theorem multiply_commutes (sound : ctx.Sound) (ev : Evaluator) (ha : a.Proper ctx)
    (hb : b.Proper ctx) (c : Coins) : Commutes (multiply ev) a b c := by
  cases a with
  | plain xs =>
    cases b with
    | plain ys =>
      exact .of_swap (fun _ => lanes_swap float_mul_comm) fun _ => lanes_swap float_mul_comm
    | cipher y => exact .of_eq rfl
  | cipher x =>
    cases b with
    | plain ys => exact .of_eq rfl
    | cipher y =>
      exact .of_swaps (fun _ _ => rfl) (multiplyCipher_swaps sound ev ha hb)
        (multiplyCipher_swaps sound ev hb ha)

/-- Operands of sums and products can be swapped. -/
theorem operands_commute [Primitives] {params : Params} (hctx : Context.ofParams params = .ok ctx)
    (ev : Evaluator) (ha : a.Proper ctx) (hb : b.Proper ctx) (c : Coins) :
    Commutes (add ev) a b c ∧ Commutes (multiply ev) a b c :=
  ⟨add_commutes ev a b c, multiply_commutes (Context.sound_of_ofParams hctx) ev ha hb c⟩

end Element

namespace Registers.Tiny

open Element

/-- Another element over both primes. -/
def element' : Poly :=
  .ofInts Context.tiny.topBasis [5, 0, -1, 8]

/-- A ciphertext with two components that differ. -/
def held' : Element :=
  .cipher (.ofCiphertext ⟨[element', element], .ofFloat 16, 1⟩ .real)

theorem proper_held' : held'.Proper Context.tiny := by
  have isOver : element.IsOver (Context.tiny.basisAt 1) := isOver_element
  have isOver' : element'.IsOver (Context.tiny.basisAt 1) := Context.sound_tiny.isOver_ofInts 1 rfl
  exact Handle.proper_ofCiphertext
    ⟨Ciphertext.wellFormed_pair Nat.one_lt_two isOver' isOver _, List.cons_ne_nil _ _⟩ .real

attribute [local instance] Primitives.coarse

/-- Two ciphertexts of one scale have one product. -/
theorem operands_commute_tiny :
    Context.ofParams Context.tiny.params = .ok Context.tiny ∧ held.Proper Context.tiny ∧
    held'.Proper Context.tiny ∧ Scales (· = ·) held held' ∧
    ∃ r c, (multiply evaluator held held').run default = .ok (r, c) ∧
      (multiply evaluator held' held).run default = .ok (r, c) := by
  have scales : Scales (· = ·) held held' := by
    intro x y hx hy
    obtain rfl := Element.cipher.inj hx
    obtain rfl := Element.cipher.inj hy
    rfl
  have some : ((multiply evaluator held held').run default).toOption.isSome = true := by
    decide +kernel
  obtain ⟨⟨r, c⟩, product⟩ := Option.isSome_iff_exists.mp some
  have product := eq_ok_of_toOption product
  obtain ⟨-, commutes⟩ := operands_commute Context.ofParams_tiny evaluator proper_held proper_held'
    default
  exact ⟨Context.ofParams_tiny, proper_held, proper_held', scales, r, c, product,
    commutes.equal scales r c product⟩

end Registers.Tiny

end CipherFlow
