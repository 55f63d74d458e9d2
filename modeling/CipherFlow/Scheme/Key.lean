import CipherFlow.Number.Decimal
import CipherFlow.Ring.Poly
import CipherFlow.Scheme.Coins

/-!
# Keys

The secret is a sparse ternary ring element `s`. A public key is a sample
`(b, a)` with `b = e - a * s`. A relinearisation key holds one such sample
for each channel, with `s * s` added in that channel alone. Every key is a
function of its samples; the versions that draw the samples stand last.
-/

namespace CipherFlow

open CipherFlow.Ring (Basis Poly)

namespace Key

/-- What key material can be refused for. -/
inductive Error where
  | invalidHammingWeight (weight degree : Nat)
  | invalidErrorStd (deviation : Float)
  | digitCountMismatch (expected got : Nat)
  | componentBasisMismatch
  | ring (e : Ring.Error)
deriving Repr

/-- The wording of an error. -/
def Error.message : Error → String
  | .invalidHammingWeight weight degree =>
    s!"Hamming weight {weight} exceeds ring dimension {degree}"
  | .invalidErrorStd deviation =>
    s!"Invalid error standard deviation: {Decimal.shortest deviation} (must be positive)"
  | .digitCountMismatch expected got =>
    s!"Relinearization key has {got} digits, basis needs {expected}"
  | .componentBasisMismatch => "Key components live in different bases"
  | .ring e => e.message

instance : ToString Error := ⟨Error.message⟩

instance : MonadLift (Except Ring.Error) (Except Error) := ⟨fun r => r.mapError .ring⟩

/-- A draw whose arguments may be refused. -/
abbrev Sampling := StateT Coins (Except Error)

/-- Requires a finite positive deviation. -/
def checkDeviation (deviation : Float) : Except Error Unit :=
  if Binary64.isPositive deviation then .ok () else .error (.invalidErrorStd deviation)

/-- A uniform ring element. -/
def uniformPoly (basis : Basis) : Draw Poly := do
  let channels ← basis.primes.mapM (Coins.residues basis.degree ·)
  return ⟨basis, channels⟩

/-- The sample `(e - a * s, a)` of a secret. -/
def sample (s a : Poly) (e : List Int) : Except Error (Poly × Poly) := do
  let product ← Poly.promised (a.mul s)
  let b ← Poly.promised ((Poly.ofInts s.basis e).sub product)
  return (b, a)

end Key

/-! ## Secret keys -/

/-- The secret of a party. -/
structure SecretKey where
  poly : Poly
deriving Repr, DecidableEq

namespace SecretKey

/-- The secret with given coefficients. -/
def ofCoefficients (basis : Basis) (coeffs : List Int) : SecretKey :=
  ⟨Poly.ofInts basis coeffs⟩

/-- The secret over the first primes of its basis. -/
def atBasis (k : SecretKey) (basis : Basis) : Except Key.Error Poly := do
  k.poly.dropTo basis

/-- Draws a secret with a given number of nonzero coefficients. -/
def generate (basis : Basis) (weight : Nat) : Key.Sampling SecretKey := do
  if basis.degree < weight then throw (.invalidHammingWeight weight basis.degree)
  basis.reserve
  let coeffs ← Coins.ternary basis.degree weight
  return ofCoefficients basis coeffs

end SecretKey

/-! ## Public keys -/

/-- A public key: a sample of the secret. -/
structure PublicKey where
  b : Poly
  a : Poly
deriving Repr, DecidableEq

namespace PublicKey

/-- The public key of a secret for a uniform element and an error. -/
def ofSamples (s : SecretKey) (a : Poly) (e : List Int) : Except Key.Error PublicKey := do
  let (b, a) ← Key.sample s.poly a e
  return ⟨b, a⟩

/-- The key of two components over the same primes. -/
def ofParts (b a : Poly) : Except Key.Error PublicKey :=
  if b.basis.primes = a.basis.primes then .ok ⟨b, a⟩ else .error .componentBasisMismatch

/-- The basis of the key. -/
def basis (k : PublicKey) : Basis :=
  k.b.basis

/-- Both components over the first primes of their basis. -/
def atBasis (k : PublicKey) (basis : Basis) : Except Key.Error (Poly × Poly) := do
  let b ← k.b.dropTo basis
  let a ← k.a.dropTo basis
  return (b, a)

/-- Draws a public key of a secret. -/
def generate (s : SecretKey) (deviation : Float) : Key.Sampling PublicKey := do
  Key.checkDeviation deviation
  let a ← Key.uniformPoly s.poly.basis
  let e ← Coins.gaussian s.poly.degree deviation
  ofSamples s a e

end PublicKey

/-! ## Relinearisation keys -/

/-- One sample for each channel of the basis, which hides the square of the
secret in that channel. -/
structure RelinKey where
  digits : List (Poly × Poly)
deriving Repr, DecidableEq

namespace RelinKey

/-- Keeps one channel and puts zeros into the others. -/
def mask (p : Poly) (index : Nat) : Poly :=
  ⟨p.basis, p.channels.zipIdx.map fun (c, j) => if j = index then c else c.map fun _ => 0⟩

/-- The digit that hides a channel of a square. -/
def digitOf (s square : Poly) (index : Nat) (a : Poly) (e : List Int) :
    Except Key.Error (Poly × Poly) := do
  let (b, a) ← Key.sample s a e
  let b ← Poly.promised (b.add (mask square index))
  return (b, a)

/-- The key of a secret for the samples of its digits. -/
def ofSamples (s : SecretKey) (samples : List (Poly × List Int)) :
    Except Key.Error RelinKey := do
  let square ← Poly.promised (s.poly.mul s.poly)
  let digits ← samples.zipIdx.mapM fun ((a, e), index) => digitOf s.poly square index a e
  return ⟨digits⟩

/-- The key of given digits: one for each channel, all over the same
primes. -/
def ofDigits (digits : List (Poly × Poly)) : Except Key.Error RelinKey :=
  match digits with
  | [] => .error (.digitCountMismatch 1 0)
  | (first, _) :: _ =>
    let primes := first.basis.primes
    if digits.length ≠ primes.length then
      .error (.digitCountMismatch primes.length digits.length)
    else if digits.all fun d => d.1.basis.primes == primes && d.2.basis.primes == primes then
      .ok ⟨digits⟩
    else .error .componentBasisMismatch

/-- The digits of the channels of a basis, over that basis. -/
def digitsAt (k : RelinKey) (basis : Basis) : Except Key.Error (List (Poly × Poly)) :=
  let count := basis.channelCount
  if k.digits.length < count then .error (.digitCountMismatch count k.digits.length)
  else (k.digits.take count).mapM fun (b, a) => do
    let b ← b.dropTo basis
    let a ← a.dropTo basis
    return (b, a)

/-- Draws a relinearisation key of a secret. -/
def generate (s : SecretKey) (deviation : Float) : Key.Sampling RelinKey := do
  Key.checkDeviation deviation
  let samples ← Coins.repeated (do
    let a ← Key.uniformPoly s.poly.basis
    let e ← Coins.gaussian s.poly.degree deviation
    return (a, e)) s.poly.basis.channelCount
  ofSamples s samples

end RelinKey

end CipherFlow
