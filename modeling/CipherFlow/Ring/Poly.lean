import CipherFlow.Number.Binary64
import CipherFlow.Ring.Basis
import CipherFlow.Ring.Convolution

/-!
# Ring elements

An element of `Z[X] / (X ^ n + 1)` modulo the product of the primes of a
basis, held as one list of residues for each prime. Sums, products, the
passage to fewer primes, division by the last prime, and the digits used for
switching keys.
-/

namespace CipherFlow.Ring

/-! ## One channel -/

namespace Channel

/-- The coefficientwise sum. -/
def add (q : Nat) (a b : List Nat) : List Nat :=
  List.zipWith (Modular.add · · q) a b

/-- The coefficientwise difference. -/
def sub (q : Nat) (a b : List Nat) : List Nat :=
  List.zipWith (Modular.sub · · q) a b

/-- The coefficientwise opposite. -/
def neg (q : Nat) (c : List Nat) : List Nat :=
  c.map (Modular.neg · q)

/-- The residues of a polynomial as an element of degree `n`: what lies at
`X ^ n` and above comes back with the other sign, as `X ^ n = -1`. -/
def wrap (q n : Nat) (c : List Nat) : List Nat :=
  List.zipWith (fun low high => Modular.sub (low % q) (high % q) q) (c.take n) (c.drop n)

/-- The negacyclic product of two channels of one length. -/
def mul (q : Nat) (a b : List Nat) : List Nat :=
  wrap q b.length (product a b)

end Channel

/-- A ring element: `channels[c][k]` is the `k`-th coefficient modulo the
`c`-th prime. -/
structure Poly where
  basis : Basis
  channels : List (List Nat)
deriving Repr, DecidableEq

namespace Poly

/-- The invariant of ring elements: a channel for each prime, a residue
below the prime for each power of `X`. -/
structure Reduced (p : Poly) : Prop where
  length_channels : p.channels.length = p.basis.primes.length
  length_channel : ∀ c ∈ p.channels, c.length = p.basis.degree
  lt_prime : ∀ cq ∈ p.channels.zip p.basis.primes, ∀ x ∈ cq.1, x < cq.2

/-- The number of coefficients. -/
def degree (p : Poly) : Nat :=
  p.basis.degree

/-- The number of channels. -/
def channelCount (p : Poly) : Nat :=
  p.channels.length

/-! ## Making elements -/

/-- The zero of a basis. -/
def zero (b : Basis) : Poly :=
  ⟨b, b.primes.map fun _ => List.replicate b.degree 0⟩

/-- What is wrong with the channels of a basis, in their order: a length,
then a residue. -/
def channelProblem (degree : Nat) : (channels : List (List Nat)) → (primes : List Nat) →
    Option Error
  | c :: channels, q :: primes =>
    if c.length ≠ degree then some (.invalidDegree c.length)
    else
      match c.find? (q ≤ ·) with
      | some bad => some (.invalidPrime bad)
      | none => channelProblem degree channels primes
  | _, _ => none

/-- The element with given residues, if they fit the basis. -/
def ofChannels (b : Basis) (channels : List (List Nat)) : Except Error Poly :=
  if channels.length ≠ b.primes.length then .error (.invalidPrimeCount channels.length)
  else
    match channelProblem b.degree channels b.primes with
    | some e => .error e
    | none => .ok ⟨b, channels⟩

/-- The element with given integer coefficients. -/
def ofInts (b : Basis) (coeffs : List Int) : Poly :=
  ⟨b, b.primes.map fun q => coeffs.map (Modular.ofInt · q)⟩

/-- Requires as many coefficients as the degree. -/
def checkLength (b : Basis) (n : Nat) : Except Error Unit :=
  if n = b.degree then .ok () else .error (.fault (.lengthMismatch n b.degree))

/-- The element with given integer coefficients; a fault if their number is
not the degree. -/
def ofInts? (b : Basis) (coeffs : List Int) : Except Error Poly := do
  checkLength b coeffs.length
  return ofInts b coeffs

/-- Integers of smaller magnitude are reduced as they are. -/
def wideBound : Nat := 9 * Nat.pow 10 18

/-- The residue stored for a rounded coefficient. A wide one is reduced
modulo the floating-point value of the prime, and kept below the prime. -/
def residueOfWide (c : Int) (q : Nat) : Nat :=
  if c.natAbs < wideBound then Modular.ofInt c q
  else min (Modular.ofInt c (Binary64.nearestFloat q)) (q - 1)

/-- The element with given rounded coefficients of any magnitude. -/
def ofWide (b : Basis) (coeffs : List Int) : Poly :=
  ⟨b, b.primes.map fun q => coeffs.map (residueOfWide · q)⟩

/-- The element whose coefficients are the integer parts of given numbers; a
fault if their number is not the degree. -/
def ofFloats? (b : Basis) (coeffs : List Float) : Except Error Poly := do
  checkLength b coeffs.length
  return ofWide b (coeffs.map Binary64.truncate)

/-! ## Arithmetic -/

/-- Combines channel by channel two elements of one basis. -/
def zipChannels (f : Nat → List Nat → List Nat → List Nat) (a b : Poly) :
    Except Error Poly :=
  if a.basis = b.basis then
    .ok ⟨a.basis, List.zipWith (fun q cs => f q cs.1 cs.2) a.basis.primes
      (a.channels.zip b.channels)⟩
  else .error .basisMismatch

/-- The sum of two elements of one basis. -/
def add (a b : Poly) : Except Error Poly :=
  zipChannels Channel.add a b

/-- The difference of two elements of one basis. -/
def sub (a b : Poly) : Except Error Poly :=
  zipChannels Channel.sub a b

/-- The product of two elements of one basis. -/
def mul (a b : Poly) : Except Error Poly :=
  zipChannels Channel.mul a b

/-- The opposite of an element. -/
def neg (a : Poly) : Poly :=
  ⟨a.basis, List.zipWith Channel.neg a.basis.primes a.channels⟩

/-- Arithmetic on operands that are promised to share a basis: where they do
not, the promise is broken and the call is a fault. -/
def promised (r : Except Error Poly) : Except Error Poly :=
  match r with
  | .error .basisMismatch => .error (.fault .basisMismatch)
  | r => r

/-! ## Fewer primes -/

/-- Keeps the channels of a basis that consists of the first primes. -/
def dropTo (p : Poly) (target : Basis) : Except Error Poly :=
  if target.isInitialOf p.basis then
    .ok ⟨target, p.channels.take target.channelCount⟩
  else .error .basisMismatch

/-- Takes the centred residues modulo the last prime away from a channel and
divides by that prime. -/
def divideChannel (last : Nat) (remainders : List Int) (q : Nat) (c : List Nat) :
    List Nat :=
  let inverse := Modular.inv last q
  List.zipWith (fun x r => Modular.mul (Modular.sub x (Modular.ofInt r q) q) inverse q)
    c remainders

/-- Divides by the last prime, rounding to the nearest integer, and leaves
its channel out. -/
def divideByLast (p : Poly) (target : Basis) : Except Error Poly :=
  if p.channelCount ≤ 1 then .error .lastPrime
  else if target.channelCount + 1 = p.channelCount && target.isInitialOf p.basis then
    let last := p.basis.lastPrime
    let remainders := (p.channels.getLastD []).map (Modular.centre · last)
    .ok ⟨target, List.zipWith (divideChannel last remainders) target.primes p.channels⟩
  else .error .basisMismatch

/-! ## Digits -/

/-- The centred residues of a channel, as an element of the whole basis; a
fault if there is no such channel. -/
def digit (p : Poly) (index : Nat) : Except Error Poly :=
  match p.basis.primes[index]?, p.channels[index]? with
  | some q, some c => .ok (ofInts p.basis (c.map (Modular.centre · q)))
  | _, _ => .error (.fault (.outOfRange index p.channelCount))

end Poly

end CipherFlow.Ring
