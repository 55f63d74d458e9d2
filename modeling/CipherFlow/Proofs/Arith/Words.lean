import CipherFlow.Arith.Modular
import Mathlib.Order.Nat

/-!
# Machine words

Sums, products, quotients and remainders in machine words. A step that leaves
the words or divides by zero gives nothing. Products and powers of residues have
no such step, whatever word the modulus is. With a modulus of at most sixty-two
bits, residues are also added, subtracted, inverted and centred without one, and
integers of a signed word are reduced.

Each operation has a version that checks its words (`addMod?`, `powMod?`, `centre?`)
and one lemma that says that the checks pass (`addMod?_eq`, `powMod?_of_lt`,
`centre?_eq`). Callers are written over the checked versions and use these lemmas
from the innermost step outwards.
-/

namespace CipherFlow

/-! ## Residues -/

namespace Modular

variable {q : Nat}

theorem add_lt {a b : Nat} (ha : a < q) (hb : b < q) : add a b q < q := by
  simp only [add]
  split <;> omega

theorem sub_lt {a b : Nat} (ha : a < q) : sub a b q < q := by
  simp only [sub]
  split <;> omega

theorem mul_lt (pos : 0 < q) (a b : Nat) : mul a b q < q :=
  Nat.mod_lt _ pos

theorem ofInt_lt (pos : 0 < q) (v : Int) : ofInt v q < q := by
  have lt : v % (q : Int) < q := Int.emod_lt_of_pos v (by omega)
  have nonneg : 0 ≤ v % (q : Int) := Int.emod_nonneg v (by omega)
  unfold ofInt
  omega

/-- Without digits left, the accumulator stays. -/
theorem powLoop_zero (m width acc base : Nat) : powLoop m width acc base 0 = acc := by
  induction width generalizing base with
  | zero => rfl
  | succ width ih => exact ih _

theorem powLoop_lt {width acc base exponent : Nat} (hacc : acc < q) :
    powLoop q width acc base exponent < q := by
  induction width generalizing acc base exponent with
  | zero => exact hacc
  | succ width ih =>
    refine ih ?_
    split
    · exact mul_lt (Nat.zero_lt_of_lt hacc) _ _
    · exact hacc

theorem inv_lt (pos : 0 < q) (a : Nat) : inv a q < q :=
  powLoop_lt (Nat.mod_lt 1 pos)

end Modular

namespace Word

variable {m n : Nat}

/-! ## Words -/

/-- A result, if it fits a machine word. -/
def fit? (n : Nat) : Option Nat :=
  if n < wordSize then some n else none

def add? (m n : Nat) : Option Nat :=
  fit? (m + n)

/-- A difference that is not negative. -/
def sub? (m n : Nat) : Option Nat :=
  if n ≤ m then some (m - n) else none

def mul? (m n : Nat) : Option Nat :=
  fit? (m * n)

def div? (m n : Nat) : Option Nat :=
  if n = 0 then none else some (m / n)

def mod? (m n : Nat) : Option Nat :=
  if n = 0 then none else some (m % n)

/-- The first entries of a list that has as many. -/
def slice? {α : Type} (xs : List α) (count : Nat) : Option (List α) :=
  if count ≤ xs.length then some (xs.take count) else none

@[simp] theorem fit?_of_lt (h : n < wordSize) : fit? n = some n :=
  if_pos h

@[simp] theorem add?_of_lt (h : m + n < wordSize) : add? m n = some (m + n) :=
  if_pos h

@[simp] theorem sub?_of_le (h : n ≤ m) : sub? m n = some (m - n) :=
  if_pos h

@[simp] theorem mul?_of_lt (h : m * n < wordSize) : mul? m n = some (m * n) :=
  if_pos h

@[simp] theorem div?_of_pos (h : 0 < n) : div? m n = some (m / n) :=
  if_neg h.ne'

@[simp] theorem mod?_of_pos (h : 0 < n) : mod? m n = some (m % n) :=
  if_neg h.ne'

/-! ## Signed words -/

/-- An integer of a signed word. -/
def IsSigned (v : Int) : Prop :=
  -(Nat.pow 2 63 : Nat) ≤ v ∧ v < (Nat.pow 2 63 : Nat)

instance (v : Int) : Decidable (IsSigned v) :=
  inferInstanceAs (Decidable (_ ∧ _))

/-- A result, if it fits a signed word. -/
def signed? (v : Int) : Option Int :=
  if IsSigned v then some v else none

@[simp] theorem signed?_of_isSigned {v : Int} (h : IsSigned v) : signed? v = some v :=
  if_pos h

theorem isSigned_of_natAbs {v : Int} (h : v.natAbs < Nat.pow 2 63) : IsSigned v := by
  unfold IsSigned
  omega

/-! ## Arithmetic with a modulus -/

def addMod? (a b q : Nat) : Option Nat := do
  let s ← add? a b
  if q ≤ s then sub? s q else some s

def subMod? (a b q : Nat) : Option Nat :=
  if b ≤ a then sub? a b
  else do
    let s ← add? a q
    sub? s b

def negMod? (a q : Nat) : Option Nat :=
  if a = 0 then some 0 else sub? q a

/-- The remainder of a product of double width. -/
def mulMod? (a b q : Nat) : Option Nat :=
  if a * b < wordSize * wordSize then do
    let r ← mod? (a * b) q
    fit? r
  else none

/-- Square-and-multiply until no binary digit of the exponent is left; nothing
if it has more than `width` of them. -/
def powLoop? (q : Nat) : (width acc base exponent : Nat) → Option Nat
  | _, acc, _, 0 => some acc
  | 0, _, _, _ + 1 => none
  | width + 1, acc, base, e + 1 => do
    let acc ← if (e + 1) % 2 = 1 then mulMod? acc base q else some acc
    let base ← mulMod? base base q
    powLoop? q width acc base ((e + 1) / 2)

def powMod? (base exponent q : Nat) : Option Nat :=
  if q = 1 then some 0
  else do
    let base ← mod? base q
    powLoop? q 64 1 base exponent

/-- The inverse modulo a prime; nothing if the prime divides the number. -/
def inverse? (a q : Nat) : Option Nat := do
  let a ← mod? a q
  if a = 0 then none
  else do
    let e ← sub? q 2
    powMod? a e q

/-- The centred representative, as a signed word. -/
def centre? (r q : Nat) : Option Int :=
  if q / 2 < r then do
    let d ← sub? q r
    let d ← signed? d
    signed? (-d)
  else signed? r

/-- The residue of a signed word. -/
def reduce? (v : Int) (q : Nat) : Option Nat := do
  let v ← signed? v
  if q = 0 then none else fit? (Modular.ofInt v q)

/-! ## Products and powers modulo a word -/

section

variable {q a b : Nat} (word : q < wordSize)

include word

theorem mulMod?_of_lt (ha : a < q) (hb : b < q) :
    mulMod? a b q = some (Modular.mul a b q) := by
  have wide : a * b < wordSize * wordSize := Nat.mul_lt_mul'' (ha.trans word) (hb.trans word)
  have pos : 0 < q := Nat.zero_lt_of_lt ha
  have low : a * b % q < wordSize := (Nat.mod_lt _ pos).trans word
  rw [mulMod?, if_pos wide, mod?_of_pos pos, Option.bind_eq_bind, Option.bind_some,
    fit?_of_lt low, Modular.mul]

/-- The loop ends where the exponent does, however many more digits would be
looked at. -/
theorem powLoop?_of_lt {width count acc base e : Nat} (hacc : acc < q) (hbase : base < q)
    (fits : e < Nat.pow 2 width) (all : e < Nat.pow 2 count) :
    powLoop? q width acc base e = some (Modular.powLoop q count acc base e) := by
  induction width generalizing count acc base e with
  | zero =>
    obtain rfl : e = 0 := Nat.lt_one_iff.mp fits
    rw [powLoop?, Modular.powLoop_zero]
  | succ width ih =>
    cases e with
    | zero => rw [powLoop?, Modular.powLoop_zero]
    | succ e =>
      cases count with
      | zero => exact absurd (Nat.lt_one_iff.mp all) (Nat.succ_ne_zero e)
      | succ count =>
        have half : e + 1 < Nat.pow 2 width * 2 := fits
        have half' : e + 1 < Nat.pow 2 count * 2 := all
        have pos : 0 < q := Nat.zero_lt_of_lt hacc
        have square := mulMod?_of_lt word hbase hbase
        have below := Modular.mul_lt pos base base
        by_cases odd : (e + 1) % 2 = 1
        · rw [powLoop?, if_pos odd, mulMod?_of_lt word hacc hbase, square, Modular.powLoop,
            if_pos odd]
          exact ih (Modular.mul_lt pos _ _) below (by omega) (by omega)
        · rw [powLoop?, if_neg odd, square, Modular.powLoop, if_neg odd]
          exact ih hacc below (by omega) (by omega)

theorem powMod?_of_lt (one_lt : 1 < q) (base : Nat) {e : Nat} (he : e < wordSize) :
    powMod? base e q = some (Modular.pow base e q) := by
  have pos : 0 < q := Nat.lt_of_succ_lt one_lt
  have loop := powLoop?_of_lt word one_lt (Nat.mod_lt base pos) he Nat.lt_log2_self
  rw [powMod?, if_neg one_lt.ne', mod?_of_pos pos, Option.bind_eq_bind, Option.bind_some,
    Modular.pow, Nat.mod_eq_of_lt one_lt]
  exact loop

end

/-! ## What is computed -/

/-- A modulus of at most sixty-two bits. -/
structure IsModulus (q : Nat) : Prop where
  one_lt : 1 < q
  lt : q < Nat.pow 2 62

variable {q a b r : Nat} (hq : IsModulus q)

include hq

theorem IsModulus.pos : 0 < q :=
  Nat.lt_of_succ_lt hq.one_lt

/-- The sum of two residues is less than half a word. -/
theorem IsModulus.two_mul_lt : 2 * q < Nat.pow 2 63 := by
  have lt := hq.lt
  have half : Nat.pow 2 63 = 2 * Nat.pow 2 62 := rfl
  omega

theorem IsModulus.lt_wordSize : q < wordSize := by
  have lt := hq.two_mul_lt
  have word : wordSize = 2 * Nat.pow 2 63 := rfl
  omega

theorem addMod?_eq (ha : a < q) (hb : b < q) : addMod? a b q = some (Modular.add a b q) := by
  have word : wordSize = 2 * Nat.pow 2 63 := rfl
  have sum : a + b < wordSize := by
    have := hq.two_mul_lt
    omega
  rw [addMod?, add?_of_lt sum, Option.bind_eq_bind, Option.bind_some, Modular.add]
  split
  · exact sub?_of_le ‹_›
  · rfl

theorem subMod?_eq (hb : b < q) : subMod? a b q = some (Modular.sub a b q) := by
  rw [subMod?, Modular.sub]
  split
  · exact sub?_of_le ‹_›
  · have word : wordSize = 2 * Nat.pow 2 63 := rfl
    have sum : a + q < wordSize := by
      have := hq.two_mul_lt
      omega
    rw [add?_of_lt sum, Option.bind_eq_bind, Option.bind_some, sub?_of_le (by omega)]

omit hq in
theorem negMod?_eq (ha : a < q) : negMod? a q = some (Modular.neg a q) := by
  rw [negMod?, Modular.neg]
  split
  · rfl
  · exact sub?_of_le ha.le

theorem mulMod?_eq (ha : a < q) (hb : b < q) : mulMod? a b q = some (Modular.mul a b q) :=
  mulMod?_of_lt hq.lt_wordSize ha hb

/-- What the modulus does not divide is inverted. -/
theorem inverse?_eq (nonzero : a % q ≠ 0) : inverse? a q = some (Modular.inv a q) := by
  have exponent : q - 2 < wordSize := Nat.lt_of_le_of_lt (Nat.sub_le q 2) hq.lt_wordSize
  rw [inverse?, mod?_of_pos hq.pos, Option.bind_eq_bind, Option.bind_some, if_neg nonzero,
    sub?_of_le hq.one_lt, Option.bind_some, powMod?_of_lt hq.lt_wordSize hq.one_lt _ exponent]
  rfl

theorem isSigned_centre (hr : r < q) : IsSigned (Modular.centre r q) := by
  have lt := hq.two_mul_lt
  refine isSigned_of_natAbs ?_
  unfold Modular.centre
  split <;> omega

theorem centre?_eq (hr : r < q) : centre? r q = some (Modular.centre r q) := by
  have signed := isSigned_centre hq hr
  unfold Modular.centre at signed ⊢
  unfold centre?
  split
  · rename_i upper
    have difference : IsSigned (q - r : Nat) := by
      have lt := hq.two_mul_lt
      exact isSigned_of_natAbs (by omega)
    rw [if_pos upper] at signed
    rw [sub?_of_le hr.le, Option.bind_eq_bind, Option.bind_some, signed?_of_isSigned difference,
      Option.bind_eq_bind, Option.bind_some, signed?_of_isSigned signed]
  · rename_i lower
    rw [if_neg lower] at signed
    exact signed?_of_isSigned signed

theorem reduce?_eq {v : Int} (hv : IsSigned v) : reduce? v q = some (Modular.ofInt v q) := by
  rw [reduce?, signed?_of_isSigned hv, Option.bind_eq_bind, Option.bind_some, if_neg hq.pos.ne',
    fit?_of_lt ((Modular.ofInt_lt hq.pos v).trans hq.lt_wordSize)]

end Word

end CipherFlow
