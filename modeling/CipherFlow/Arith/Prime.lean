import CipherFlow.Arith.Modular

/-!
# Chain primes

A ring of degree `n` takes its moduli from the primes that leave the
remainder 1 modulo `2 * n`. This module tests for primality and lists such
primes downwards from a power of two.

Candidates are numbered: candidate `k` of a stride `s` is `s * k + 1`. The
searches below walk the numbers `k` downwards, so that the candidates fall
and each is met once.
-/

namespace CipherFlow.Prime

/-- Reasons for which a list of chain primes cannot be given. -/
inductive Error where
  /-- Fewer primes below the power of two than asked for. -/
  | exhausted (bits count degree : Nat)
  /-- A power of two outside the supported range. -/
  | invalidBitSize (bits : Nat)
  | fault (f : Fault)
deriving Repr, DecidableEq

/-- The wording of an error. -/
def Error.message : Error → String
  | .exhausted bits count degree =>
    s!"Unable to find {count} NTT-friendly primes below 2^{bits} for degree {degree}"
  | .invalidBitSize bits =>
    s!"Prime bit size {bits} out of range (must be in 4..=61)"
  | .fault _ => ""

instance : ToString Error := ⟨Error.message⟩

instance : MonadLift (Except Fault) (Except Error) := ⟨fun r => r.mapError .fault⟩

/-! ## Primality -/

/-- The bases of the strong probable-prime test. Together they are decisive
for every number below `3.3 * 10 ^ 24`. -/
def witnesses : List Nat :=
  [2, 3, 5, 7, 11, 13, 17, 19, 23, 29, 31, 37]

/-- Halves a number while it is even, at most `fuel` times: the odd part
and the number of halvings. -/
def halve : (fuel n : Nat) → Nat × Nat
  | 0, n => (n, 0)
  | fuel + 1, n =>
    if n % 2 = 0 then
      let (d, r) := halve fuel (n / 2)
      (d, r + 1)
    else (n, 0)

/-- Writes a positive number as an odd number times a power of two. -/
def oddPart (n : Nat) : Nat × Nat :=
  halve n.log2 n

/-- Whether repeated squaring of `x`, at most `count` times, meets `-1`. -/
def squaresReach (n : Nat) : (count x : Nat) → Bool
  | 0, _ => false
  | count + 1, x =>
    let y := Modular.mul x x n
    y == n - 1 || squaresReach n count y

/-- Whether `n`, with `n - 1 = d * 2 ^ r`, passes the strong test to base
`a`. A base that is not below `n` says nothing. -/
def passes (n d r a : Nat) : Bool :=
  if n ≤ a then true
  else
    let x := Modular.pow a d n
    x == 1 || x == n - 1 || squaresReach n (r - 1) x

/-- The strong probable-prime test to the fixed bases. -/
def isPrime (n : Nat) : Bool :=
  if n < 2 then false
  else if n < 4 then true
  else if n % 2 = 0 then false
  else
    let (d, r) := oddPart (n - 1)
    witnesses.all (passes n d r)

/-! ## Primes in a residue class -/

/-- The distance between neighbouring candidates for a ring degree. -/
def stride (degree : Nat) : Except Fault Nat :=
  if degree = 0 then .error .zeroModulus else Fault.checkSize (2 * degree)

/-- Whether a number is prime and leaves the remainder 1 modulo twice the
degree. The degree is looked at for primes only. -/
def isChainPrime (p degree : Nat) : Except Fault Bool :=
  if isPrime p then do
    let s ← stride degree
    return p % s == 1
  else .ok false

/-- The largest prime among the candidates numbered `k` and below. -/
def largestFrom (s : Nat) : (k : Nat) → Option Nat
  | 0 => none
  | k + 1 =>
    let p := s * (k + 1) + 1
    if isPrime p then some p else largestFrom s k

/-- The number of the largest candidate below a bound. -/
def lastCandidate (s bound : Nat) : Nat :=
  (bound - 2) / s

/-- The largest chain prime of a degree below a bound. -/
def largestBelow (bound degree : Nat) : Except Fault (Option Nat) := do
  let s ← stride degree
  if bound ≤ s then return none
  let _ ← Fault.checkSize (bound - 1 + s)
  return largestFrom s (lastCandidate s bound)

/-- The first `count` primes among the candidates numbered `k` and below
that are not excluded, largest first. -/
def listFrom (s : Nat) (exclude : List Nat) : (k count : Nat) → Option (List Nat)
  | _, 0 => some []
  | 0, _ + 1 => none
  | k + 1, count + 1 =>
    let p := s * (k + 1) + 1
    if isPrime p && !exclude.contains p then
      (listFrom s exclude k count).map (p :: ·)
    else listFrom s exclude k (count + 1)

/-- The `count` largest chain primes of a degree below `2 ^ bits`, largest
first, without the excluded ones. -/
def listBelow (bits count degree : Nat) (exclude : List Nat) :
    Except Error (List Nat) := do
  if bits < 4 ∨ 61 < bits then throw (.invalidBitSize bits)
  Fault.reserve 8 count
  if count = 0 then return []
  let s ← stride degree
  match listFrom s exclude (lastCandidate s (Nat.pow 2 bits)) count with
  | some primes => return primes
  | none => throw (.exhausted bits count degree)

end CipherFlow.Prime
