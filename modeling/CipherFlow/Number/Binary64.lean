/-!
# Floating-point numbers and their exact values

A number that is passed on keeps its sixty-four bits, which tell apart the
many forms of not-a-number. A finite number is a signed integer times a power
of two: this module reads that integer and exponent off the bits, and rounds
the exact value to integers. That part computes nothing in floating point, so
its results can be reasoned about as integers.
-/

namespace CipherFlow

/-- A floating-point number as it is stored. -/
structure Binary64 where
  bits : UInt64
deriving Repr

namespace Binary64

/-! ## Stored numbers -/

/-- The stored form of a number. -/
def ofFloat (x : Float) : Binary64 :=
  ⟨x.toBits⟩

/-- The stored form of a natural number, rounded to the nearest. -/
def ofNat (n : Nat) : Binary64 :=
  ofFloat (Float.ofNat n)

/-- The number that is stored. -/
def toFloat (x : Binary64) : Float :=
  Float.ofBits x.bits

instance : Coe Binary64 Float := ⟨toFloat⟩

/-- Numbers are compared, not their stored forms: the two zeros are equal,
and not-a-number equals nothing. -/
instance : BEq Binary64 := ⟨fun x y => x.toFloat == y.toFloat⟩

/-- What an operation gives that has no value. -/
def invalid : Binary64 :=
  ⟨0xfff8000000000000⟩

/-- Marks a form of not-a-number as one that has been computed with. -/
def quiet (x : Binary64) : Binary64 :=
  ⟨x.bits ||| 0x0008000000000000⟩

/-- An operation on stored numbers. An operand that is not a number is the
result, the first of two, marked as quiet. -/
def combine (f : Float → Float → Float) (x y : Binary64) : Binary64 :=
  if x.toFloat.isNaN then x.quiet
  else if y.toFloat.isNaN then y.quiet
  else
    let z := f x y
    if z.isNaN then invalid else ofFloat z

instance : Mul Binary64 := ⟨combine (· * ·)⟩

instance : Div Binary64 := ⟨combine (· / ·)⟩

/-! ## Exact values -/

/-- The value of a `Float`: a finite one is `± mantissa * 2 ^ exponent`. -/
inductive Value where
  | nan
  | infinite (negative : Bool)
  | finite (negative : Bool) (mantissa : Nat) (exponent : Int)
deriving Repr, DecidableEq

/-- The value that 64 bits stand for: a sign, eleven bits of exponent and
fifty-two of fraction. -/
def Value.ofBits (bits : Nat) : Value :=
  let negative := bits / Nat.pow 2 63 % 2 == 1
  let exponent : Nat := bits / Nat.pow 2 52 % Nat.pow 2 11
  let fraction : Nat := bits % Nat.pow 2 52
  if exponent = 2047 then
    if fraction = 0 then .infinite negative else .nan
  else if exponent = 0 then .finite negative fraction (-1074)
  else .finite negative (Nat.pow 2 52 + fraction) ((exponent : Int) - 1075)

/-- The exact value of a `Float`. -/
def value (x : Float) : Value :=
  .ofBits x.toBits.toNat

/-- Neither an infinity nor not-a-number. -/
def isFinite (x : Float) : Bool :=
  match value x with
  | .finite .. => true
  | _ => false

/-- Finite and greater than zero. -/
def isPositive (x : Float) : Bool :=
  isFinite x && 0 < x

/-- Gives a magnitude a sign. -/
def signed (negative : Bool) (magnitude : Nat) : Int :=
  if negative then -(magnitude : Int) else magnitude

/-- `mantissa * 2 ^ exponent` without its fraction. -/
def wholePart (mantissa : Nat) (exponent : Int) : Nat :=
  mantissa * Nat.pow 2 exponent.toNat / Nat.pow 2 (-exponent).toNat

/-- `mantissa * 2 ^ exponent` rounded to the nearest integer, a half away
from zero. -/
def nearestWhole (mantissa : Nat) (exponent : Int) : Nat :=
  (2 * mantissa * Nat.pow 2 exponent.toNat + Nat.pow 2 (-exponent).toNat) /
    (2 * Nat.pow 2 (-exponent).toNat)

/-- The integer part, toward zero; zero where the value is not finite. -/
def truncate (x : Float) : Int :=
  match value x with
  | .finite negative mantissa exponent =>
    signed negative (wholePart mantissa exponent)
  | _ => 0

/-- The nearest integer, a half away from zero; none where the value is not
finite. -/
def round? (x : Float) : Option Int :=
  match value x with
  | .finite negative mantissa exponent =>
    some (signed negative (nearestWhole mantissa exponent))
  | _ => none

/-- The nearest integer that a signed machine word holds, a half away from zero;
not-a-number counts as zero. -/
def nearestWord (x : Float) : Int :=
  match value x with
  | .nan => 0
  | .infinite negative => if negative then -Nat.pow 2 63 else Nat.pow 2 63 - 1
  | .finite negative mantissa exponent =>
    max (-Nat.pow 2 63) (min (Nat.pow 2 63 - 1) (signed negative (nearestWhole mantissa exponent)))

/-- The integer nearest to `n` among those with at most fifty-three
significant binary digits, ties to the even one: `n` as a `Float` holds it. -/
def nearestFloat (n : Nat) : Nat :=
  let unit := Nat.pow 2 (n.log2 - 52)
  let q := n / unit
  let r := n % unit
  let up := unit < 2 * r ∨ (unit = 2 * r ∧ q % 2 = 1)
  (if up then q + 1 else q) * unit

end Binary64

end CipherFlow
