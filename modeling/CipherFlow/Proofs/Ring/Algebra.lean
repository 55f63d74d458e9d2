import CipherFlow.Proofs.Ring.Integers
import CipherFlow.Proofs.Scheme.Chain

/-!
# The ring over a basis

The reduced elements over a valid basis form a commutative ring with unit, and
the operations on elements are those of the ring. Every law is read off the
images, where it holds already. An integer polynomial has an element, and this
respects the ring `Z[X] / (X ^ n + 1)`. Leaving out the last primes is a
homomorphism to the ring over fewer of them.

`Basis.elements_form_ring` puts the three parts together.

How the proof goes. The image of an element in a product of quotient rings
determines the element (`ext_image`), and each operation has the image that it
should (`add_image`, `mul_image` and so on), so no law is proved on lists of
residues. `Z[X]` acts through `root`: an element is the value of its integer
polynomial at `root` (`evaluateIntsAt_root`), and `root` to the degree is `-1`
(`root_pow_degree`), which is the reduction modulo `X ^ n + 1`.
-/

namespace CipherFlow.Ring

open Polynomial (X)

/-- The reduced elements over a basis. -/
def Basis.Elements (B : Basis) : Type :=
  {p : Poly // p.IsOver B}

/-- The coefficients of the polynomial 1. -/
def unitInts (n : Nat) : List Int :=
  1 :: List.replicate (n - 1) 0

/-- The coefficients of the polynomial `X`. -/
def powerInts (n : Nat) : List Int :=
  0 :: 1 :: List.replicate (n - 2) 0

/-- That a ring structure on the elements over a basis is that of their
operations: those succeed, with the result that the ring has. -/
structure Basis.IsRing (B : Basis) (_ : CommRing B.Elements) : Prop where
  add : ∀ p q : B.Elements, p.val.add q.val = .ok (p + q).val
  mul : ∀ p q : B.Elements, p.val.mul q.val = .ok (p * q).val
  neg : ∀ p : B.Elements, p.val.neg = (-p).val
  sub : ∀ p q : B.Elements, p.val.sub q.val = .ok (p + -q).val
  zero : Poly.zero B = (0 : B.Elements).val
  one : Poly.ofInts B (unitInts B.degree) = (1 : B.Elements).val

theorem evaluateIntsAt_replicate_zero {A : Type} [CommRing A] (x : A) (n : Nat) :
    evaluateIntsAt x (List.replicate n 0) = 0 := by
  have zeros := evaluateIntsAt_map_zero (x := x) (List.replicate n 0)
  rwa [List.map_const', List.length_replicate] at zeros

theorem evaluateIntsAt_unitInts {A : Type} [CommRing A] (x : A) (n : Nat) :
    evaluateIntsAt x (unitInts n) = 1 := by
  rw [unitInts, evaluateIntsAt, evaluateIntsAt_replicate_zero, Int.cast_one, mul_zero, add_zero]

theorem evaluateIntsAt_powerInts {A : Type} [CommRing A] (x : A) (n : Nat) :
    evaluateIntsAt x (powerInts n) = x := by
  rw [powerInts, evaluateIntsAt, evaluateIntsAt, evaluateIntsAt_replicate_zero]
  simp

namespace Basis.Elements

variable {B b : Basis}

/-! ## Operations -/

noncomputable instance : Add B.Elements where
  add p q := ⟨(add_ok p.2 q.2).choose, (add_ok p.2 q.2).choose_spec.2.1⟩

instance : Neg B.Elements where
  neg p := ⟨p.val.neg, (neg_ok p.2).1⟩

theorem image_add (small : b.isInitialOf B = true) (p q : B.Elements) :
    (p + q).val.image b = p.val.image b + q.val.image b :=
  (add_ok p.2 q.2).choose_spec.2.2 b small

theorem image_neg (small : b.isInitialOf B = true) (p : B.Elements) :
    (-p).val.image b = -p.val.image b :=
  (neg_ok p.2).2 b small

/-- The class of an element in the ring of its basis. -/
noncomputable def image (p : B.Elements) : B.Quotient :=
  p.val.image B

@[simp]
theorem add_image (p q : B.Elements) : (p + q).image = p.image + q.image :=
  image_add B.isInitialOf_self p q

@[simp]
theorem neg_image (p : B.Elements) : (-p).image = -p.image :=
  image_neg B.isInitialOf_self p

/-- The element over the first primes. -/
noncomputable def dropTo (small : b.isInitialOf B = true) (p : B.Elements) : b.Elements :=
  ⟨(dropTo_ok small p.2).choose, (dropTo_ok small p.2).choose_spec.2.1⟩

theorem val_dropTo (small : b.isInitialOf B = true) (p : B.Elements) :
    p.val.dropTo b = .ok (dropTo small p).val :=
  (dropTo_ok small p.2).choose_spec.1

theorem dropTo_image (small : b.isInitialOf B = true) (p : B.Elements) :
    (dropTo small p).image = p.val.image b :=
  (dropTo_ok small p.2).choose_spec.2.2 b b.isInitialOf_self

/-! ## Operations over a valid basis -/

variable [valid : Fact B.Valid]

noncomputable instance : Mul B.Elements where
  mul p q :=
    ⟨(mul_ok valid.out.degree_ne p.2 q.2).choose,
      (mul_ok valid.out.degree_ne p.2 q.2).choose_spec.2.1⟩

instance : Zero B.Elements where
  zero := ⟨Poly.zero B, (zero_ok valid.out.pos).1⟩

/-- The element with given integer coefficients. -/
def ofInts (f : List Int) (length : f.length = B.degree) : B.Elements :=
  ⟨Poly.ofInts B f, isOver_ofInts valid.out.pos length⟩

theorem length_unitInts : (unitInts B.degree).length = B.degree := by
  have degree := valid.out.degree_ne
  simp only [unitInts, List.length_cons, List.length_replicate]
  omega

theorem length_powerInts : (powerInts B.degree).length = B.degree := by
  have degree := valid.out.four_le_degree
  simp only [powerInts, List.length_cons, List.length_replicate]
  omega

instance : One B.Elements where
  one := ofInts (unitInts B.degree) length_unitInts

theorem image_mul (small : b.isInitialOf B = true) (p q : B.Elements) :
    (p * q).val.image b = p.val.image b * q.val.image b :=
  (mul_ok valid.out.degree_ne p.2 q.2).choose_spec.2.2 b small

theorem image_zero (small : b.isInitialOf B = true) : (0 : B.Elements).val.image b = 0 :=
  Ring.image_zero small

theorem image_ofInts (small : b.isInitialOf B = true) (f : List Int)
    (length : f.length = B.degree) : (ofInts f length : B.Elements).val.image b = b.image f :=
  Ring.image_ofInts valid.out.pos small f

theorem image_one (small : b.isInitialOf B = true) : (1 : B.Elements).val.image b = 1 := by
  refine (image_ofInts small _ length_unitInts).trans ?_
  exact funext fun _ => evaluateIntsAt_unitInts _ _

theorem ext_image {p q : B.Elements} (h : p.image = q.image) : p = q :=
  Subtype.ext (eq_of_image_eq valid.out.degree_ne valid.out.one_lt p.2 q.2 h)

/-! ## The ring -/

@[simp]
theorem mul_image (p q : B.Elements) : (p * q).image = p.image * q.image :=
  image_mul B.isInitialOf_self p q

@[simp]
theorem zero_image : (0 : B.Elements).image = 0 :=
  image_zero B.isInitialOf_self

@[simp]
theorem one_image : (1 : B.Elements).image = 1 :=
  image_one B.isInitialOf_self

/-- The laws hold of the images, and elements with one image are equal. -/
noncomputable instance commRing : CommRing B.Elements where
  add_assoc p q r := ext_image (by simp only [add_image, add_assoc])
  zero_add p := ext_image (by simp only [add_image, zero_image, zero_add])
  add_zero p := ext_image (by simp only [add_image, zero_image, add_zero])
  add_comm p q := ext_image (by simp only [add_image, add_comm])
  neg_add_cancel p := ext_image (by simp only [add_image, neg_image, neg_add_cancel, zero_image])
  mul_assoc p q r := ext_image (by simp only [mul_image, mul_assoc])
  mul_comm p q := ext_image (by simp only [mul_image, mul_comm])
  one_mul p := ext_image (by simp only [mul_image, one_image, one_mul])
  mul_one p := ext_image (by simp only [mul_image, one_image, mul_one])
  zero_mul p := ext_image (by simp only [mul_image, zero_image, zero_mul])
  mul_zero p := ext_image (by simp only [mul_image, zero_image, mul_zero])
  left_distrib p q r := ext_image (by simp only [mul_image, add_image, left_distrib])
  right_distrib p q r := ext_image (by simp only [mul_image, add_image, right_distrib])
  nsmul := nsmulRec
  zsmul := zsmulRec

theorem isRing : B.IsRing commRing where
  add p q := (add_ok p.2 q.2).choose_spec.1
  mul p q := (mul_ok valid.out.degree_ne p.2 q.2).choose_spec.1
  neg _ := rfl
  zero := rfl
  one := rfl
  sub p q := by
    obtain ⟨r, difference, isOver, image⟩ := sub_ok p.2 q.2
    have same : (⟨r, isOver⟩ : B.Elements) = p + -q := by
      refine ext_image ?_
      rw [add_image, neg_image, ← sub_eq_add_neg]
      exact image B B.isInitialOf_self
    rw [difference, ← same]

/-- Taking images is a homomorphism. -/
noncomputable def imageHom : B.Elements →+* B.Quotient where
  toFun := image
  map_one' := one_image
  map_mul' := mul_image
  map_zero' := zero_image
  map_add' := add_image

/-! ## Integer polynomials -/

/-- The element `X`. -/
def root : B.Elements :=
  ofInts (powerInts B.degree) length_powerInts

theorem root_image : (root : B.Elements).image = fun _ => Negacyclic.root _ _ := by
  refine (image_ofInts B.isInitialOf_self _ length_powerInts).trans ?_
  exact funext fun _ => evaluateIntsAt_powerInts _ _

theorem root_pow_degree : (root : B.Elements) ^ B.degree + 1 = 0 := by
  refine ext_image ?_
  have power : (root ^ B.degree : B.Elements).image = root.image ^ B.degree := map_pow imageHom _ _
  rw [add_image, power, root_image, one_image, zero_image]
  funext i
  have power := root_pow B.degree (B.primes.get i)
  rw [Pi.add_apply, Pi.pow_apply, power, Pi.one_apply, neg_add_cancel, Pi.zero_apply]

/-- An element is the value of its integer polynomial at `X`. -/
theorem evaluateIntsAt_root (f : List Int) (length : f.length = B.degree) :
    evaluateIntsAt (root : B.Elements) f = ofInts f length := by
  refine ext_image ?_
  have value : (evaluateIntsAt (root : B.Elements) f).image = evaluateIntsAt root.image f :=
    map_evaluateIntsAt imageHom f
  have coefficients : (ofInts f length : B.Elements).image = B.image f :=
    image_ofInts B.isInitialOf_self f length
  rw [value, coefficients, root_image]
  funext i
  exact map_evaluateIntsAt (Pi.evalRingHom (fun i => Negacyclic B.degree (B.primes.get i)) i) f

theorem ofInts_add {f g : List Int} (hf : f.length = B.degree) (hg : g.length = B.degree) :
    (ofInts f hf + ofInts g hg : B.Elements) = ofInts (addInts f g) (length_addInts hf hg) := by
  rw [← evaluateIntsAt_root, ← evaluateIntsAt_root, ← evaluateIntsAt_root,
    evaluateIntsAt_add (hf.trans hg.symm)]

theorem ofInts_mul {f g : List Int} (hf : f.length = B.degree) (hg : g.length = B.degree) :
    (ofInts f hf * ofInts g hg : B.Elements) =
      ofInts (mulInts f g) (length_mulInts valid.out.degree_ne hg f) := by
  rw [← evaluateIntsAt_root, ← evaluateIntsAt_root, ← evaluateIntsAt_root,
    evaluateIntsAt_mul valid.out.degree_ne (eq_neg_of_add_eq_zero_left root_pow_degree) hg]

/-- The homomorphism that reduces integer polynomials modulo `X ^ n + 1`. -/
noncomputable def ofIntegers : AdjoinRoot (X ^ B.degree + 1 : Polynomial ℤ) →+* B.Elements :=
  AdjoinRoot.lift (Int.castRingHom _) root (by simpa using root_pow_degree)

theorem ofIntegers_evaluateIntsAt (f : List Int) (length : f.length = B.degree) :
    ofIntegers (evaluateIntsAt (AdjoinRoot.root _) f) = (ofInts f length : B.Elements) := by
  rw [map_evaluateIntsAt, ofIntegers, AdjoinRoot.lift_root, evaluateIntsAt_root]

/-! ## Fewer primes -/

/-- The homomorphism that leaves out the last primes. -/
noncomputable def drop [smaller : Fact b.Valid] (small : b.isInitialOf B = true) :
    B.Elements →+* b.Elements where
  toFun := dropTo small
  map_one' := ext_image (by rw [dropTo_image, one_image, image_one small])
  map_mul' p q := ext_image (by rw [mul_image]; simp only [dropTo_image, image_mul small])
  map_zero' := ext_image (by rw [dropTo_image, zero_image, image_zero small])
  map_add' p q := ext_image (by rw [add_image]; simp only [dropTo_image, image_add small])

end Basis.Elements

/-- The elements over an accepted basis form a commutative ring with unit under
their operations. Reducing integer coefficients respects the ring of integer
polynomials modulo `X ^ n + 1`, in which what a product has at `X ^ n` and
above comes back with the other sign. Leaving out the last primes is a
homomorphism. -/
theorem Basis.elements_form_ring {degree : Nat} {primes : List Nat} {B : Basis}
    (h : Basis.ofPrimes degree primes = .ok B) :
    ∃ R : CommRing B.Elements, B.IsRing R ∧
      (∃ reduce : AdjoinRoot (X ^ B.degree + 1 : Polynomial ℤ) →+* B.Elements,
        ∀ f : List Int, f.length = B.degree →
          Poly.ofInts? B f = .ok (reduce (evaluateIntsAt (AdjoinRoot.root _) f)).val) ∧
      (∀ f g : List Int, f.length = B.degree → g.length = B.degree →
        (Poly.ofInts B f).add (Poly.ofInts B g) = .ok (Poly.ofInts B (addInts f g)) ∧
        (Poly.ofInts B f).mul (Poly.ofInts B g) = .ok (Poly.ofInts B (mulInts f g)) ∧
        ∀ k < B.degree,
          (addInts f g).getD k 0 = f.getD k 0 + g.getD k 0 ∧
          (mulInts f g).getD k 0 = ∑ i ∈ Finset.range B.degree,
            f.getD i 0 * if i ≤ k then g.getD (k - i) 0 else -g.getD (B.degree + k - i) 0) ∧
      ∀ b : Basis, b.primes ≠ [] → b.isInitialOf B = true →
        ∃ R' : CommRing b.Elements, b.IsRing R' ∧
          ∃ drop : B.Elements →+* b.Elements,
            ∀ p : B.Elements, p.val.dropTo b = .ok (drop p).val := by
  obtain ⟨-, valid⟩ := Basis.valid_of_ofPrimes h
  have : Fact B.Valid := ⟨valid⟩
  refine ⟨Elements.commRing, Elements.isRing, ⟨Elements.ofIntegers, ?_⟩, ?_, ?_⟩
  · intro f length
    rw [Elements.ofIntegers_evaluateIntsAt f length, Poly.ofInts?, Poly.checkLength, if_pos length]
    rfl
  · intro f g hf hg
    have sum := Elements.isRing.add (Elements.ofInts f hf) (Elements.ofInts g hg)
    have product := Elements.isRing.mul (Elements.ofInts f hf) (Elements.ofInts g hg)
    rw [Elements.ofInts_add] at sum
    rw [Elements.ofInts_mul] at product
    refine ⟨sum, product, fun k hk => ⟨getD_addInts (hf.trans hg.symm) k, ?_⟩⟩
    rw [getD_mulInts hg hf.le hk, hf]
  · intro b nonempty small
    have : Fact b.Valid := ⟨valid.initial small nonempty⟩
    exact ⟨Elements.commRing, Elements.isRing, Elements.drop small, Elements.val_dropTo small⟩

/-- `X ^ 3` times `X` is `-1` in degree four. -/
theorem Basis.elements_form_ring_degree_four :
    Basis.ofPrimes 4 [457, 241] = .ok ⟨4, [457, 241]⟩ ∧
      (Poly.ofInts ⟨4, [457, 241]⟩ [0, 0, 0, 1]).mul (Poly.ofInts ⟨4, [457, 241]⟩ [0, 1, 0, 0]) =
        .ok (Poly.ofInts ⟨4, [457, 241]⟩ [-1, 0, 0, 0]) := by
  have accepted : Basis.ofPrimes 4 [457, 241] = .ok ⟨4, [457, 241]⟩ := by rfl
  obtain ⟨-, -, -, integers, -⟩ := Basis.elements_form_ring accepted
  exact ⟨accepted, (integers [0, 0, 0, 1] [0, 1, 0, 0] rfl rfl).2.1⟩

end CipherFlow.Ring
