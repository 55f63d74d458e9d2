import CipherFlow.Ring.Poly
import Mathlib.Tactic.Ring

/-!
# Evaluating coefficient lists

A channel stands for the value of its polynomial at the class of `X` in
`(Z/q)[X] / (X ^ n + 1)`. Only two facts of this ring are used here: `q` is
zero in it, and `X ^ n` is `-1`. So in every commutative ring with two such
elements, the operations on channels are the operations of the ring.
-/

namespace CipherFlow.Ring

variable {A : Type} [CommRing A] {x : A}

/-- The value of a polynomial with natural coefficients. -/
def evaluateAt (x : A) : List Nat → A
  | [] => 0
  | c :: rest => c + x * evaluateAt x rest

/-- The value of a polynomial with integer coefficients. -/
def evaluateIntsAt (x : A) : List Int → A
  | [] => 0
  | c :: rest => c + x * evaluateIntsAt x rest

/-! ## Products

The product as it is before anything is reduced. -/

/-- What comes behind `n` coefficients is multiplied by `x ^ n`. -/
theorem evaluateAt_append (a b : List Nat) :
    evaluateAt x (a ++ b) = evaluateAt x a + x ^ a.length * evaluateAt x b := by
  induction a with
  | nil => simp [evaluateAt]
  | cons c a ih =>
    simp only [List.cons_append, evaluateAt, ih, List.length_cons, pow_succ]
    ring

theorem evaluateAt_replicate_zero (n : Nat) : evaluateAt x (List.replicate n 0) = 0 := by
  induction n with
  | zero => rfl
  | succ n ih => simp [List.replicate_succ, evaluateAt, ih]

theorem evaluateAt_map_zero (b : List Nat) : evaluateAt x (b.map fun _ => 0) = 0 := by
  rw [List.map_const']
  exact evaluateAt_replicate_zero _

theorem evaluateAt_map_mul (c : Nat) (b : List Nat) :
    evaluateAt x (b.map (c * ·)) = c * evaluateAt x b := by
  induction b with
  | nil => simp [evaluateAt]
  | cons d b ih =>
    simp only [List.map_cons, evaluateAt, ih, Nat.cast_mul]
    ring

theorem evaluateAt_addCoeffs (a b : List Nat) :
    evaluateAt x (addCoeffs a b) = evaluateAt x a + evaluateAt x b := by
  induction a generalizing b with
  | nil => simp [addCoeffs, evaluateAt]
  | cons c a ih =>
    cases b with
    | nil => simp [addCoeffs, evaluateAt]
    | cons d b =>
      simp only [addCoeffs, evaluateAt, ih, Nat.cast_add]
      ring

/-- The schoolbook product evaluates to the product. -/
theorem evaluateAt_convolve (a b : List Nat) :
    evaluateAt x (convolve a b) = evaluateAt x a * evaluateAt x b := by
  induction a with
  | nil => rw [convolve, evaluateAt_map_zero, evaluateAt, zero_mul]
  | cons c a ih =>
    simp only [convolve, evaluateAt_addCoeffs, evaluateAt_map_mul, evaluateAt, ih, Nat.cast_zero]
    ring

/-! ## Residues

As `q` is zero, arithmetic modulo `q` computes what arithmetic in the ring does. -/

section Residues

variable {q : Nat} (hq : (q : A) = 0)

include hq

theorem cast_mod (a : Nat) : ((a % q : Nat) : A) = a := by
  conv_rhs => rw [← Nat.mod_add_div a q]
  push_cast
  rw [hq, zero_mul, add_zero]

theorem cast_add (a b : Nat) : ((Modular.add a b q : Nat) : A) = a + b := by
  simp only [Modular.add]
  split
  · rw [Nat.cast_sub ‹_›, hq, sub_zero, Nat.cast_add]
  · rw [Nat.cast_add]

theorem cast_sub (a : Nat) {b : Nat} (hb : b < q) : ((Modular.sub a b q : Nat) : A) = a - b := by
  simp only [Modular.sub]
  split
  · rw [Nat.cast_sub ‹_›]
  · rw [Nat.cast_sub (by omega), Nat.cast_add, hq, add_zero]

theorem cast_neg {a : Nat} (ha : a < q) : ((Modular.neg a q : Nat) : A) = -a := by
  simp only [Modular.neg]
  split
  · rename_i zero
    rw [zero, Nat.cast_zero, neg_zero]
  · rw [Nat.cast_sub ha.le, hq, zero_sub]

theorem cast_ofInt (v : Int) (pos : 0 < q) : ((Modular.ofInt v q : Nat) : A) = v := by
  have nonneg : 0 ≤ v % (q : Int) := Int.emod_nonneg v (by omega)
  have eq : ((Modular.ofInt v q : Nat) : Int) = v % (q : Int) := Int.toNat_of_nonneg nonneg
  have cast : ((Modular.ofInt v q : Nat) : A) = ((v % (q : Int) : Int) : A) := by
    rw [← eq, Int.cast_natCast]
  rw [cast, Int.emod_def]
  push_cast
  rw [hq, zero_mul, sub_zero]

/-- A centred representative is congruent to its residue. -/
theorem cast_centre {r : Nat} (h : r < q) : ((Modular.centre r q : Int) : A) = r := by
  simp only [Modular.centre]
  split
  · rw [Int.cast_neg, Int.cast_natCast, Nat.cast_sub h.le, hq]
    ring
  · exact Int.cast_natCast r

/-! ## Channels

By induction on the residues. Evaluation is Horner's rule, so one step has one
residue and `x` times the value of the others. -/

theorem evaluateAt_add {a b : List Nat} (length : a.length = b.length) :
    evaluateAt x (Channel.add q a b) = evaluateAt x a + evaluateAt x b := by
  unfold Channel.add
  induction a generalizing b with
  | nil =>
    obtain rfl := List.length_eq_zero_iff.mp length.symm
    simp [evaluateAt]
  | cons c a ih =>
    cases b with
    | nil => exact nomatch length
    | cons d b =>
      simp only [List.zipWith_cons_cons, evaluateAt, ih (Nat.succ.inj length), cast_add hq]
      ring

theorem evaluateAt_sub {a b : List Nat} (length : a.length = b.length) (lt : ∀ d ∈ b, d < q) :
    evaluateAt x (Channel.sub q a b) = evaluateAt x a - evaluateAt x b := by
  unfold Channel.sub
  induction a generalizing b with
  | nil =>
    obtain rfl := List.length_eq_zero_iff.mp length.symm
    simp [evaluateAt]
  | cons c a ih =>
    cases b with
    | nil => exact nomatch length
    | cons d b =>
      simp only [List.zipWith_cons_cons, evaluateAt, cast_sub hq c (lt d List.mem_cons_self),
        ih (Nat.succ.inj length) fun e he => lt e (List.mem_cons_of_mem _ he)]
      ring

theorem evaluateAt_neg {a : List Nat} (lt : ∀ d ∈ a, d < q) :
    evaluateAt x (Channel.neg q a) = -evaluateAt x a := by
  unfold Channel.neg
  induction a with
  | nil => simp [evaluateAt]
  | cons c a ih =>
    simp only [List.map_cons, evaluateAt, cast_neg hq (lt c List.mem_cons_self),
      ih fun e he => lt e (List.mem_cons_of_mem _ he)]
    ring

theorem evaluateAt_ofInts (pos : 0 < q) (c : List Int) :
    evaluateAt x (c.map (Modular.ofInt · q)) = evaluateIntsAt x c := by
  induction c with
  | nil => rfl
  | cons v c ih => rw [List.map_cons, evaluateAt, ih, cast_ofInt hq v pos, evaluateIntsAt]

theorem evaluateIntsAt_centre {c : List Nat} (lt : ∀ r ∈ c, r < q) :
    evaluateIntsAt x (c.map (Modular.centre · q)) = evaluateAt x c := by
  induction c with
  | nil => rfl
  | cons r c ih =>
    rw [List.map_cons, evaluateIntsAt, cast_centre hq (lt r List.mem_cons_self),
      ih fun s hs => lt s (List.mem_cons_of_mem _ hs), evaluateAt]

theorem evaluateAt_map_mod (c : List Nat) : evaluateAt x (c.map (· % q)) = evaluateAt x c := by
  induction c with
  | nil => rfl
  | cons r c ih => rw [List.map_cons, evaluateAt, ih, cast_mod hq, evaluateAt]

/-- Folding back what lies at `X ^ n` and above keeps the value, as
`X ^ n = -1`. -/
theorem evaluateAt_wrap {n : Nat} {c : List Nat} (hx : x ^ n = -1) (pos : 0 < q)
    (length : c.length = n + n) : evaluateAt x (Channel.wrap q n c) = evaluateAt x c := by
  have fold : Channel.wrap q n c =
      Channel.sub q ((c.take n).map (· % q)) ((c.drop n).map (· % q)) := by
    rw [Channel.wrap, Channel.sub, List.zipWith_map]
  have take : (c.take n).length = n := by rw [List.length_take]; omega
  have drop : (c.drop n).length = n := by rw [List.length_drop]; omega
  have lt : ∀ d ∈ (c.drop n).map (· % q), d < q := by
    intro d hd
    obtain ⟨r, -, rfl⟩ := List.mem_map.mp hd
    exact Nat.mod_lt r pos
  rw [fold, evaluateAt_sub hq (by rw [List.length_map, List.length_map, take, drop]) lt,
    evaluateAt_map_mod hq, evaluateAt_map_mod hq]
  conv_rhs => rw [← List.take_append_drop n c, evaluateAt_append, take, hx]
  ring

/-- The negacyclic product evaluates to the product. -/
theorem evaluateAt_mul {a b : List Nat} (hx : x ^ b.length = -1) (pos : 0 < q)
    (length : a.length = b.length) :
    evaluateAt x (Channel.mul q a b) = evaluateAt x a * evaluateAt x b := by
  rw [Channel.mul, product_eq_convolve,
    evaluateAt_wrap hq hx pos (by rw [length_convolve, length]), evaluateAt_convolve]

end Residues

end CipherFlow.Ring
