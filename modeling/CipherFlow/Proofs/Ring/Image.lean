import CipherFlow.Proofs.Arith.Words
import CipherFlow.Proofs.Ring.Evaluation
import Mathlib.Data.ZMod.Basic
import Mathlib.RingTheory.AdjoinRoot

/-!
# Ring elements as residue classes

An element over a basis has an image: its class in `(Z/q)[X] / (X ^ n + 1)`
for each prime `q`. The image determines the element, and sums, products and
the passage to fewer primes are those of the images. The image is taken in the
ring of any basis of fewer primes of the chain, so a key over all primes can
be used in the ring of a level as it is.

Main lemmas: `add_ok`, `sub_ok`, `neg_ok`, `mul_ok`, `dropTo_ok`, and
`eq_of_image_eq` for the way back. Each says that an operation on elements over one
basis has a result, over the same basis, with the image that the ring operation
gives.

Channels are evaluated at the class of `X` (`CipherFlow.Proofs.Ring.Evaluation`), so
a law of the quotient ring holds of them as soon as it holds of values of
polynomials. A reduced channel is a polynomial of degree below `n`, and the modulus
is monic, so it is determined by its class (`channel_eq_of_evaluateAt_eq`).
-/

namespace CipherFlow.Ring

open Polynomial (X Monic)

/-! ## The rings -/

/-- The ring `(Z/q)[X] / (X ^ n + 1)`. -/
abbrev Negacyclic (n q : Nat) : Type :=
  AdjoinRoot (X ^ n + 1 : Polynomial (ZMod q))

/-- The class of `X`. -/
noncomputable def Negacyclic.root (n q : Nat) : Negacyclic n q :=
  AdjoinRoot.root _

variable {n q : Nat}

theorem cast_prime_eq_zero (n q : Nat) : ((q : Nat) : Negacyclic n q) = 0 := by
  have zero : ((q : Nat) : ZMod q) = 0 := ZMod.natCast_self q
  rw [← map_natCast (AdjoinRoot.of (X ^ n + 1 : Polynomial (ZMod q))), zero, map_zero]

theorem root_pow (n q : Nat) : Negacyclic.root n q ^ n = -1 := by
  have self : AdjoinRoot.mk (X ^ n + 1 : Polynomial (ZMod q)) (X ^ n + 1) = 0 := AdjoinRoot.mk_self
  rw [map_add, map_pow, AdjoinRoot.mk_X, map_one] at self
  exact eq_neg_of_add_eq_zero_left self

theorem monic_modulus (hn : n ≠ 0) : (X ^ n + 1 : Polynomial (ZMod q)).Monic := by
  have monic := Polynomial.monic_X_pow_add_C (1 : ZMod q) hn
  rwa [map_one] at monic

/-! ## One channel -/

/-- The coefficients of a polynomial are those of its list. -/
theorem coeff_evaluateAt (c : List Nat) (i : Nat) :
    (evaluateAt (X : Polynomial (ZMod q)) c).coeff i = (c.getD i 0 : ZMod q) := by
  induction c generalizing i with
  | nil => simp [evaluateAt]
  | cons r c ih =>
    cases i with
    | zero => simp [evaluateAt]
    | succ i => simp [evaluateAt, ih, Polynomial.coeff_X_mul]

theorem evaluateAt_root (c : List Nat) :
    evaluateAt (Negacyclic.root n q) c =
      AdjoinRoot.mk (X ^ n + 1) (evaluateAt (X : Polynomial (ZMod q)) c) := by
  induction c with
  | nil => simp [evaluateAt]
  | cons r c ih =>
    rw [evaluateAt, evaluateAt, ih, map_add, map_mul, AdjoinRoot.mk_X, map_natCast]
    rfl

theorem degree_evaluateAt_lt {a : List Nat} (length : a.length = n) :
    (evaluateAt (X : Polynomial (ZMod q)) a).degree < n := by
  rw [Polynomial.degree_lt_iff_coeff_zero]
  intro i hi
  have outside : a[i]? = none := List.getElem?_eq_none (length ▸ hi)
  rw [coeff_evaluateAt, List.getD_eq_getElem?_getD, outside, Option.getD_none, Nat.cast_zero]

/-- A reduced channel is determined by its class. -/
theorem channel_eq_of_evaluateAt_eq (hn : n ≠ 0) (hq : 1 < q) {a b : List Nat}
    (la : a.length = n) (lb : b.length = n) (ra : ∀ r ∈ a, r < q) (rb : ∀ r ∈ b, r < q)
    (h : evaluateAt (Negacyclic.root n q) a = evaluateAt (Negacyclic.root n q) b) : a = b := by
  have : Fact (1 < q) := ⟨hq⟩
  rw [evaluateAt_root, evaluateAt_root, AdjoinRoot.mk_eq_mk] at h
  -- a multiple of `X ^ n + 1` of smaller degree is zero
  have small : (evaluateAt (X : Polynomial (ZMod q)) a - evaluateAt X b).degree <
      (X ^ n + 1 : Polynomial (ZMod q)).degree := by
    have degree := Polynomial.degree_X_pow_add_C (Nat.pos_of_ne_zero hn) (1 : ZMod q)
    rw [map_one] at degree
    rw [degree]
    exact (Polynomial.degree_sub_le _ _).trans_lt
      (max_lt (degree_evaluateAt_lt la) (degree_evaluateAt_lt lb))
  have equal : evaluateAt (X : Polynomial (ZMod q)) a = evaluateAt X b := by
    by_contra ne
    exact (monic_modulus hn).not_dvd_of_degree_lt (sub_ne_zero.mpr ne) small h
  refine List.ext_getElem (la.trans lb.symm) ?_
  intro i ha hb
  have coeff := congrArg (Polynomial.coeff · i) equal
  simp only [coeff_evaluateAt, List.getD_eq_getElem?_getD, List.getElem?_eq_getElem ha,
    List.getElem?_eq_getElem hb, Option.getD_some] at coeff
  rw [ZMod.natCast_eq_natCast_iff', Nat.mod_eq_of_lt (ra _ (List.getElem_mem ha)),
    Nat.mod_eq_of_lt (rb _ (List.getElem_mem hb))] at coeff
  exact coeff

/-! ## Elements over a basis -/

/-- The channel of a prime. -/
def Poly.channel (p : Poly) (i : Nat) : List Nat :=
  p.channels.getD i []

/-- A reduced element over a basis. -/
structure Poly.IsOver (B : Basis) (p : Poly) : Prop where
  basis : p.basis = B
  reduced : p.Reduced

variable {B b : Basis} {p p' r : Poly}

/-- What a channel of a reduced element looks like. -/
structure IsChannel (n q : Nat) (c : List Nat) : Prop where
  length : c.length = n
  lt : ∀ r ∈ c, r < q

theorem Poly.IsOver.channel (h : p.IsOver B) {i : Nat} (hq : B.primes[i]? = some q) :
    IsChannel B.degree q (p.channel i) ∧ p.channels[i]? = some (p.channel i) := by
  obtain ⟨rfl, reduced⟩ := h
  obtain ⟨lt, rfl⟩ := List.getElem?_eq_some_iff.mp hq
  have lt' : i < p.channels.length := reduced.length_channels ▸ lt
  have eq : p.channel i = p.channels[i] := by
    rw [Poly.channel, List.getD_eq_getElem?_getD, List.getElem?_eq_getElem lt', Option.getD_some]
  rw [eq]
  refine ⟨⟨reduced.length_channel _ (List.getElem_mem lt'), ?_⟩, List.getElem?_eq_getElem lt'⟩
  refine reduced.lt_prime (p.channels[i], p.basis.primes[i]) ?_
  exact List.mem_iff_getElem.mpr ⟨i, by simp [lt, lt'], by simp⟩

theorem Poly.isOver_of_channel {channels : List (List Nat)}
    (length : channels.length = B.primes.length)
    (each : ∀ (i q : Nat) (c : List Nat), B.primes[i]? = some q → channels[i]? = some c →
      IsChannel B.degree q c) :
    Poly.IsOver B ⟨B, channels⟩ where
  basis := rfl
  reduced := {
    length_channels := length
    length_channel := by
      intro c hc
      obtain ⟨i, lt, rfl⟩ := List.mem_iff_getElem.mp hc
      have lt' : i < B.primes.length := length ▸ lt
      exact (each i _ _ (List.getElem?_eq_getElem lt') (List.getElem?_eq_getElem lt)).length
    lt_prime := by
      rintro ⟨c, q⟩ hc
      obtain ⟨i, lt, eq⟩ := List.mem_iff_getElem.mp hc
      have hi := List.getElem?_eq_some_iff.mpr ⟨lt, eq⟩
      obtain ⟨hc, hq⟩ := List.getElem?_zip_eq_some.mp hi
      exact (each i q c hq hc).lt }

/-! ## Images -/

/-- The ring of a basis: one residue ring for each prime. -/
abbrev Basis.Quotient (b : Basis) : Type :=
  (i : Fin b.primes.length) → Negacyclic b.degree (b.primes.get i)

/-- The image of an element in the ring of a basis. -/
noncomputable def Poly.image (b : Basis) (p : Poly) : b.Quotient :=
  fun i => evaluateAt (Negacyclic.root _ _) (p.channel i)

/-- The image of an integer polynomial. -/
noncomputable def Basis.image (b : Basis) (c : List Int) : b.Quotient :=
  fun _ => evaluateIntsAt (Negacyclic.root _ _) c

theorem prime_of_isInitialOf (h : b.isInitialOf B = true) (i : Fin b.primes.length) :
    B.primes[i.val]? = some (b.primes.get i) := by
  have initial : b.primes <+: B.primes := by
    simp only [Basis.isInitialOf, Bool.and_eq_true, List.isPrefixOf_iff_prefix] at h
    exact h.2
  obtain ⟨rest, eq⟩ := initial
  rw [← eq, List.getElem?_append_left i.isLt, List.getElem?_eq_getElem i.isLt]
  rfl

theorem degree_of_isInitialOf (h : b.isInitialOf B = true) : b.degree = B.degree := by
  simp only [Basis.isInitialOf, Bool.and_eq_true, beq_iff_eq] at h
  exact h.1

/-! ## Arithmetic -/

/-- Elements over one basis are combined channel by channel. -/
theorem zipChannels_ok {f : Nat → List Nat → List Nat → List Nat}
    (keeps : ∀ q x y, IsChannel B.degree q x → IsChannel B.degree q y →
      IsChannel B.degree q (f q x y)) (hp : p.IsOver B) (hp' : p'.IsOver B) :
    ∃ r, Poly.zipChannels f p p' = .ok r ∧ r.IsOver B ∧
      ∀ i q, B.primes[i]? = some q → r.channel i = f q (p.channel i) (p'.channel i) := by
  have each : ∀ i q, B.primes[i]? = some q →
      (List.zipWith (fun q cs => f q cs.1 cs.2) B.primes (p.channels.zip p'.channels))[i]? =
        some (f q (p.channel i) (p'.channel i)) := by
    intro i q hq
    rw [List.getElem?_zipWith, hq, List.zip, List.getElem?_zipWith, (hp.channel hq).2,
      (hp'.channel hq).2]
  refine ⟨⟨B, List.zipWith (fun q cs => f q cs.1 cs.2) B.primes (p.channels.zip p'.channels)⟩,
    ?_, ?_, ?_⟩
  · rw [Poly.zipChannels, hp.basis, hp'.basis, if_pos rfl]
  · refine Poly.isOver_of_channel ?_ ?_
    · have length := hp.reduced.length_channels
      have length' := hp'.reduced.length_channels
      rw [hp.basis] at length
      rw [hp'.basis] at length'
      simp [length, length']
    · intro i q c hq hc
      obtain rfl := Option.some.inj ((each i q hq).symm.trans hc)
      exact keeps q _ _ (hp.channel hq).1 (hp'.channel hq).1
  · intro i q hq
    rw [Poly.channel, List.getD_eq_getElem?_getD, each i q hq, Option.getD_some]

theorem isChannel_zipWith {α β : Type} {f : α → β → Nat} {x : List α} {y : List β}
    (lx : x.length = n) (ly : y.length = n) (lt : ∀ a ∈ x, ∀ b ∈ y, f a b < q) :
    IsChannel n q (List.zipWith f x y) := by
  refine ⟨by rw [List.length_zipWith, lx, ly, Nat.min_self], ?_⟩
  intro r hr
  obtain ⟨i, hi, rfl⟩ := List.mem_iff_getElem.mp hr
  rw [List.getElem_zipWith]
  exact lt _ (List.getElem_mem _) _ (List.getElem_mem _)

theorem isChannel_add {x y : List Nat} (hx : IsChannel n q x) (hy : IsChannel n q y) :
    IsChannel n q (Channel.add q x y) :=
  isChannel_zipWith hx.length hy.length fun a ha b hb => Modular.add_lt (hx.lt a ha) (hy.lt b hb)

theorem isChannel_sub {x y : List Nat} (hx : IsChannel n q x) (hy : IsChannel n q y) :
    IsChannel n q (Channel.sub q x y) :=
  isChannel_zipWith hx.length hy.length fun a ha _ _ => Modular.sub_lt (hx.lt a ha)

theorem isChannel_neg {x : List Nat} (hx : IsChannel n q x) : IsChannel n q (Channel.neg q x) := by
  refine ⟨by rw [Channel.neg, List.length_map, hx.length], ?_⟩
  intro r hr
  obtain ⟨a, ha, rfl⟩ := List.mem_map.mp hr
  have := hx.lt a ha
  simp only [Modular.neg]
  split <;> omega

theorem isChannel_mul (pos : 0 < q) {x y : List Nat} (hx : IsChannel n q x)
    (hy : IsChannel n q y) : IsChannel n q (Channel.mul q x y) := by
  have length : (product x y).length = n + n := by
    rw [product_eq_convolve, length_convolve, hx.length, hy.length]
  rw [Channel.mul, hy.length]
  refine isChannel_zipWith ?_ ?_ fun a _ b _ => Modular.sub_lt (Nat.mod_lt a pos)
  · rw [List.length_take]; omega
  · rw [List.length_drop]; omega

/-- The sum of two elements. -/
theorem add_ok (hp : p.IsOver B) (hp' : p'.IsOver B) :
    ∃ r, p.add p' = .ok r ∧ r.IsOver B ∧
      ∀ b : Basis, b.isInitialOf B = true → r.image b = p.image b + p'.image b := by
  obtain ⟨r, eq, isOver, channel⟩ := zipChannels_ok (fun q x y => isChannel_add) hp hp'
  refine ⟨r, eq, isOver, ?_⟩
  intro b small
  funext i
  have prime := prime_of_isInitialOf small i
  simp only [Pi.add_apply, Poly.image, channel i _ prime]
  exact evaluateAt_add (cast_prime_eq_zero _ _)
    ((hp.channel prime).1.length.trans (hp'.channel prime).1.length.symm)

/-- The difference of two elements. -/
theorem sub_ok (hp : p.IsOver B) (hp' : p'.IsOver B) :
    ∃ r, p.sub p' = .ok r ∧ r.IsOver B ∧
      ∀ b : Basis, b.isInitialOf B = true → r.image b = p.image b - p'.image b := by
  obtain ⟨r, eq, isOver, channel⟩ := zipChannels_ok (fun q x y => isChannel_sub) hp hp'
  refine ⟨r, eq, isOver, ?_⟩
  intro b small
  funext i
  have prime := prime_of_isInitialOf small i
  simp only [Pi.sub_apply, Poly.image, channel i _ prime]
  exact evaluateAt_sub (cast_prime_eq_zero _ _)
    ((hp.channel prime).1.length.trans (hp'.channel prime).1.length.symm) (hp'.channel prime).1.lt

/-- The opposite of an element. -/
theorem neg_ok (hp : p.IsOver B) :
    p.neg.IsOver B ∧ ∀ b : Basis, b.isInitialOf B = true → p.neg.image b = -p.image b := by
  have each : ∀ i q, B.primes[i]? = some q →
      (List.zipWith Channel.neg B.primes p.channels)[i]? = some (Channel.neg q (p.channel i)) := by
    intro i q hq
    rw [List.getElem?_zipWith, hq, (hp.channel hq).2]
  have length := hp.reduced.length_channels
  rw [hp.basis] at length
  have eq : p.neg = ⟨B, List.zipWith Channel.neg B.primes p.channels⟩ := by rw [Poly.neg, hp.basis]
  rw [eq]
  refine ⟨Poly.isOver_of_channel (by simp [length]) ?_, ?_⟩
  · intro i q c hq hc
    obtain rfl := Option.some.inj ((each i q hq).symm.trans hc)
    exact isChannel_neg (hp.channel hq).1
  · intro b small
    funext i
    have prime := prime_of_isInitialOf small i
    have channel : (Poly.mk B (List.zipWith Channel.neg B.primes p.channels)).channel i =
        Channel.neg (b.primes.get i) (p.channel i) := by
      rw [Poly.channel, List.getD_eq_getElem?_getD, each i _ prime, Option.getD_some]
    simp only [Pi.neg_apply, Poly.image, channel]
    exact evaluateAt_neg (cast_prime_eq_zero _ _) (hp.channel prime).1.lt

/-- A prime of a basis is positive. -/
theorem IsChannel.pos {c : List Nat} (h : IsChannel n q c) (hn : n ≠ 0) : 0 < q := by
  cases c with
  | nil => exact absurd h.length.symm hn
  | cons r c => exact Nat.zero_lt_of_lt (h.lt r List.mem_cons_self)

/-- The product of two elements. -/
theorem mul_ok (hn : B.degree ≠ 0) (hp : p.IsOver B) (hp' : p'.IsOver B) :
    ∃ r, p.mul p' = .ok r ∧ r.IsOver B ∧
      ∀ b : Basis, b.isInitialOf B = true → r.image b = p.image b * p'.image b := by
  obtain ⟨r, eq, isOver, channel⟩ :=
    zipChannels_ok (fun q x y hx hy => isChannel_mul (hx.pos hn) hx hy) hp hp'
  refine ⟨r, eq, isOver, ?_⟩
  intro b small
  funext i
  have prime := prime_of_isInitialOf small i
  have length := (hp.channel prime).1.length
  have length' := (hp'.channel prime).1.length
  simp only [Pi.mul_apply, Poly.image, channel i _ prime]
  refine evaluateAt_mul (cast_prime_eq_zero _ _) ?_ ((hp.channel prime).1.pos hn)
    (length.trans length'.symm)
  rw [length', ← degree_of_isInitialOf small]
  exact root_pow _ _

/-! ## Integer polynomials -/

theorem residueOfWide_lt (pos : 0 < q) (v : Int) : Poly.residueOfWide v q < q := by
  unfold Poly.residueOfWide
  split
  · exact Modular.ofInt_lt pos v
  · omega

/-- An element made of residues of integers, as many as the degree. -/
theorem isOver_map {f : Int → Nat → Nat} {c : List Int} (length : c.length = B.degree)
    (lt : ∀ q ∈ B.primes, ∀ v, f v q < q) :
    Poly.IsOver B ⟨B, B.primes.map fun q => c.map (f · q)⟩ := by
  refine Poly.isOver_of_channel (List.length_map _) ?_
  intro i q d hq hd
  rw [List.getElem?_map, hq, Option.map_some] at hd
  obtain rfl := Option.some.inj hd
  refine ⟨by rw [List.length_map, length], ?_⟩
  intro r hr
  obtain ⟨v, -, rfl⟩ := List.mem_map.mp hr
  exact lt q (List.mem_of_getElem? hq) v

theorem isOver_ofInts (pos : ∀ q ∈ B.primes, 0 < q) {c : List Int} (length : c.length = B.degree) :
    (Poly.ofInts B c).IsOver B :=
  isOver_map length fun q hq => Modular.ofInt_lt (pos q hq)

theorem isOver_ofWide (pos : ∀ q ∈ B.primes, 0 < q) {c : List Int} (length : c.length = B.degree) :
    (Poly.ofWide B c).IsOver B :=
  isOver_map length fun q hq => residueOfWide_lt (pos q hq)

theorem channel_ofInts {i : Nat} (hq : B.primes[i]? = some q) (c : List Int) :
    (Poly.ofInts B c).channel i = c.map (Modular.ofInt · q) := by
  simp [Poly.channel, Poly.ofInts, List.getD_eq_getElem?_getD, hq]

theorem image_ofInts (pos : ∀ q ∈ B.primes, 0 < q) (small : b.isInitialOf B = true)
    (c : List Int) : (Poly.ofInts B c).image b = b.image c := by
  funext i
  have prime := prime_of_isInitialOf small i
  simp only [Poly.image, Basis.image, channel_ofInts prime]
  exact evaluateAt_ofInts (cast_prime_eq_zero _ _) (pos _ (List.mem_of_getElem? prime)) c

/-- Every channel of the zero is zero, so its image is in every ring. -/
theorem image_zero (small : b.isInitialOf B = true) : (Poly.zero B).image b = 0 := by
  funext i
  have prime := prime_of_isInitialOf small i
  simp only [Poly.image, Poly.channel, Poly.zero, List.getD_eq_getElem?_getD, List.getElem?_map,
    prime, Option.map_some, Option.getD_some, Pi.zero_apply]
  exact evaluateAt_replicate_zero _

/-- The zero of a basis. -/
theorem zero_ok (pos : ∀ q ∈ B.primes, 0 < q) :
    (Poly.zero B).IsOver B ∧ (Poly.zero B).image B = 0 := by
  refine ⟨Poly.isOver_of_channel (by simp) ?_, image_zero (by simp [Basis.isInitialOf])⟩
  intro i q c hq hc
  rw [List.getElem?_map, hq, Option.map_some] at hc
  obtain rfl := Option.some.inj hc
  refine ⟨List.length_replicate, ?_⟩
  intro r hr
  rw [List.eq_of_mem_replicate hr]
  exact pos q (List.mem_of_getElem? hq)

/-! ## Fewer primes -/

/-- An element over more primes has the same image after the others have been
left out. -/
theorem dropTo_ok (small : b.isInitialOf B = true) (hp : p.IsOver B) :
    ∃ r, p.dropTo b = .ok r ∧ r.IsOver b ∧
      ∀ b' : Basis, b'.isInitialOf b = true → r.image b' = p.image b' := by
  have channel : ∀ i q, b.primes[i]? = some q → B.primes[i]? = some q ∧
      (p.channels.take b.channelCount)[i]? = some (p.channel i) := by
    intro i q hq
    obtain ⟨lt, rfl⟩ := List.getElem?_eq_some_iff.mp hq
    have prime := prime_of_isInitialOf small ⟨i, lt⟩
    refine ⟨prime, ?_⟩
    rw [List.getElem?_take_of_lt (show i < b.channelCount from lt)]
    exact (hp.channel prime).2
  refine ⟨⟨b, p.channels.take b.channelCount⟩, ?_, ?_, ?_⟩
  · rw [Poly.dropTo, hp.basis, if_pos small]
  · refine Poly.isOver_of_channel ?_ fun i q c hq hc => ?_
    · have fewer : b.primes.length ≤ B.primes.length := by
        simp only [Basis.isInitialOf, Bool.and_eq_true, List.isPrefixOf_iff_prefix] at small
        exact small.2.length_le
      have length := hp.reduced.length_channels
      rw [hp.basis] at length
      simp [Basis.channelCount, length, fewer]
    · obtain ⟨prime, eq⟩ := channel i q hq
      obtain rfl := Option.some.inj (eq.symm.trans hc)
      rw [degree_of_isInitialOf small]
      exact (hp.channel prime).1
  · intro b' small'
    funext i
    have eq := (channel i _ (prime_of_isInitialOf small' i)).2
    simp only [Poly.image, Poly.channel, List.getD_eq_getElem?_getD] at eq ⊢
    rw [eq, Option.getD_some]

/-! ## Digits -/

/-- The centred residues of a channel. -/
def Poly.centred (p : Poly) (i : Nat) : List Int :=
  (p.channel i).map (Modular.centre · (p.basis.primes.getD i 0))

/-- The centred residues have the class of their channel. -/
theorem image_centred (hp : p.IsOver b) (i : Fin b.primes.length) :
    b.image (p.centred i) i = p.image b i := by
  have prime : b.primes[i.val]? = some (b.primes.get i) := List.getElem?_eq_getElem i.isLt
  have eq : p.basis.primes.getD i 0 = b.primes.get i := by
    rw [hp.basis, List.getD_eq_getElem?_getD, prime, Option.getD_some]
  simp only [Basis.image, Poly.image, Poly.centred, eq]
  exact evaluateIntsAt_centre (cast_prime_eq_zero _ _) (hp.channel prime).1.lt

/-- Modulo an odd number the centred residues are less than half of it. -/
theorem centred_le (hp : p.IsOver B) {i : Nat} (hq : B.primes[i]? = some q) (odd : q % 2 = 1) :
    (p.centred i).length = B.degree ∧ ∀ v ∈ p.centred i, v.natAbs ≤ (q - 1) / 2 := by
  obtain ⟨length, lt⟩ := (hp.channel hq).1
  refine ⟨by rw [Poly.centred, List.length_map, length], ?_⟩
  intro v hv
  obtain ⟨r, hr, rfl⟩ := List.mem_map.mp hv
  have lt := lt r hr
  have eq : p.basis.primes.getD i 0 = q := by
    rw [hp.basis, List.getD_eq_getElem?_getD, hq, Option.getD_some]
  rw [eq]
  unfold Modular.centre
  split <;> omega

theorem digit_ok (hp : p.IsOver B) {i : Nat} (hq : B.primes[i]? = some q) :
    p.digit i = .ok (Poly.ofInts B (p.centred i)) := by
  have channel := (hp.channel hq).2
  have eq : p.basis.primes.getD i 0 = q := by
    rw [hp.basis, List.getD_eq_getElem?_getD, hq, Option.getD_some]
  rw [Poly.digit, Poly.centred, eq, hp.basis, hq, channel]

/-! ## What the image tells -/

/-- An element over a basis is determined by its image. -/
theorem eq_of_image_eq (hn : B.degree ≠ 0) (hq : ∀ q ∈ B.primes, 1 < q) (hp : p.IsOver B)
    (hp' : p'.IsOver B) (h : p.image B = p'.image B) : p = p' := by
  have length := hp.reduced.length_channels
  have length' := hp'.reduced.length_channels
  rw [hp.basis] at length
  rw [hp'.basis] at length'
  have channels : p.channels = p'.channels := by
    refine List.ext_getElem (length.trans length'.symm) ?_
    intro i hi hi'
    have lt : i < B.primes.length := length ▸ hi
    have prime : B.primes[i]? = some B.primes[i] := List.getElem?_eq_getElem lt
    obtain ⟨c, eq⟩ := hp.channel prime
    obtain ⟨c', eq'⟩ := hp'.channel prime
    rw [List.getElem?_eq_getElem hi] at eq
    rw [List.getElem?_eq_getElem hi'] at eq'
    rw [Option.some.inj eq, Option.some.inj eq']
    exact channel_eq_of_evaluateAt_eq hn (hq _ (List.getElem_mem lt)) c.length c'.length c.lt
      c'.lt (congrFun h ⟨i, lt⟩)
  obtain ⟨basis, _⟩ := p
  obtain ⟨basis', _⟩ := p'
  obtain rfl : basis = B := hp.basis
  obtain rfl : basis' = basis := hp'.basis
  exact congrArg (Poly.mk basis') channels

end CipherFlow.Ring
