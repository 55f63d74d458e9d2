import CipherFlow.Arith.Prime

/-!
# Bases of residue number systems

A basis fixes the ring `Z[X] / (X ^ degree + 1)` and the primes modulo which
its elements are held, one channel for each prime. The bases of a modulus
chain are the prefixes of its longest one.
-/

namespace CipherFlow.Ring

/-- What a basis or an operation on ring elements can be refused for. -/
inductive Error where
  /-- Another number of primes or channels than the basis has. -/
  | invalidPrimeCount (count : Nat)
  /-- A modulus that is no usable prime, or a residue not below its prime. -/
  | invalidPrime (value : Nat)
  /-- A degree that is no power of two from four on, or a channel of that
  many coefficients. -/
  | invalidDegree (degree : Nat)
  | primeGeneration (e : Prime.Error)
  | basisMismatch
  /-- Division by the last prime where it is the only one. -/
  | lastPrime
  | fault (f : Fault)
deriving Repr, DecidableEq

/-- The wording of an error. -/
def Error.message : Error → String
  | .invalidPrimeCount count => s!"Invalid prime count: {count}"
  | .invalidPrime value => s!"Invalid prime: {value}"
  | .invalidDegree degree => s!"Ring degree {degree} must be a power of two >= 4"
  | .primeGeneration e => e.message
  | .basisMismatch =>
    "Basis mismatch: cannot operate on polynomials with different RNS bases"
  | .lastPrime => "Cannot drop below a single prime"
  | .fault _ => ""

instance : ToString Error := ⟨Error.message⟩

/-- A degree and the primes of the channels, in order. -/
structure Basis where
  degree : Nat
  primes : List Nat
deriving Repr, DecidableEq

namespace Basis

/-- Whether a number is a power of two from four on. -/
def isDegree (n : Nat) : Bool :=
  4 ≤ n && n == Nat.pow 2 n.log2

/-- Primes stay below this bound, so that the sum of two residues is less
than half a machine word. -/
def primeBound : Nat := Nat.pow 2 62

/-- The first entry that is not prime, not below the bound, or seen before. -/
def firstUnusable : (seen primes : List Nat) → Option Nat
  | _, [] => none
  | seen, p :: rest =>
    if Prime.isPrime p && p < primeBound && !seen.contains p then
      firstUnusable (p :: seen) rest
    else some p

/-- The basis of a degree and a list of primes, if they are usable. -/
def ofPrimes (degree : Nat) (primes : List Nat) : Except Error Basis :=
  if !isDegree degree then .error (.invalidDegree degree)
  else if primes.isEmpty then .error (.invalidPrimeCount 0)
  else
    match firstUnusable [] primes with
    | some p => .error (.invalidPrime p)
    | none => .ok ⟨degree, primes⟩

/-- What `ofPrimes` accepts: a degree that is a power of two from four on
and at least one prime, all distinct and below the bound. -/
structure Valid (b : Basis) : Prop where
  degree_pow : b.degree = Nat.pow 2 b.degree.log2
  four_le_degree : 4 ≤ b.degree
  primes_ne_nil : b.primes ≠ []
  isPrime : ∀ p ∈ b.primes, Prime.isPrime p = true
  lt_bound : ∀ p ∈ b.primes, p < primeBound
  nodup : b.primes.Nodup

/-- The number of primes. -/
def channelCount (b : Basis) : Nat :=
  b.primes.length

/-- The place of a basis in its chain: one less than its primes. -/
def level (b : Basis) : Nat :=
  b.primes.length - 1

/-- The last prime. -/
def lastPrime (b : Basis) : Nat :=
  b.primes.getLastD 0

/-- The basis of the first `count` primes. -/
def take (b : Basis) (count : Nat) : Except Error Basis :=
  if count = 0 ∨ b.primes.length < count then .error (.invalidPrimeCount count)
  else .ok ⟨b.degree, b.primes.take count⟩

/-- Requires that the coefficients of one channel fit into memory. -/
def reserve (b : Basis) : Except Error Unit :=
  (Fault.reserve 8 b.degree).mapError .fault

/-- Whether a basis consists of the first primes of another. -/
def isInitialOf (small large : Basis) : Bool :=
  small.degree == large.degree && small.primes.isPrefixOf large.primes

end Basis

end CipherFlow.Ring
