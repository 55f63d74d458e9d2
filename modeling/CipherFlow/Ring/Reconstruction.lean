import CipherFlow.Ring.Poly

/-!
# Reading an element back

Every integer of magnitude below half the product of the primes has one
balanced mixed-radix form `d₀ + d₁ q₀ + d₂ q₀ q₁ + …`, with each digit
centred modulo its prime. The digits are found from the residues one after
the other; their weighted sum is the centred coefficient.
-/

namespace CipherFlow.Ring

/-- One place of the mixed-radix system: its prime, the weights of the places
before it modulo that prime, and the inverse of its own weight. -/
structure Place where
  prime : Nat
  weights : List Nat
  inverse : Nat
deriving Repr, DecidableEq

namespace Place

/-- The weights of successive places: products of the primes before, from a
given one on. -/
def weightsMod (q : Nat) : (weight : Nat) → (primes : List Nat) → List Nat
  | _, [] => []
  | w, p :: primes => w :: weightsMod q (Modular.mul w (p % q) q) primes

/-- The place of a prime after the primes before it. -/
def after (before : List Nat) (q : Nat) : Place :=
  let own := before.foldl (fun w p => Modular.mul w (p % q) q) (1 % q)
  ⟨q, weightsMod q (1 % q) before, Modular.inv own q⟩

/-- The places of the primes that follow those before. -/
def ofPrimesAfter : (before primes : List Nat) → List Place
  | _, [] => []
  | before, q :: primes => after before q :: ofPrimesAfter (before ++ [q]) primes

/-- The places of a basis. -/
def ofBasis (b : Basis) : List Place :=
  ofPrimesAfter [] b.primes

/-- What given lower digits contribute modulo the prime of a place. -/
def partialSum (pl : Place) (lower : List Int) : Nat :=
  (lower.zip pl.weights).foldl
    (fun acc dw => (acc + Modular.mul (Modular.ofInt dw.1 pl.prime) dw.2 pl.prime) % pl.prime) 0

/-- The digit of a place, given the lower digits and the residue. -/
def digit (pl : Place) (lower : List Int) (residue : Nat) : Int :=
  let rest := Modular.sub residue (pl.partialSum lower) pl.prime
  Modular.centre (Modular.mul rest pl.inverse pl.prime) pl.prime

end Place

/-- The balanced mixed-radix digits of a coefficient, lowest first, after the
digits already found. -/
def digitsAfter : (lower : List Int) → (places : List Place) → (residues : List Nat) → List Int
  | lower, pl :: places, r :: residues =>
    digitsAfter (lower ++ [pl.digit lower r]) places residues
  | lower, _, _ => lower

/-- The balanced mixed-radix digits of a coefficient with given residues. -/
def digits (b : Basis) (residues : List Nat) : List Int :=
  digitsAfter [] (Place.ofBasis b) residues

/-- The integer with given digits. -/
def evaluate : (primes : List Nat) → (digits : List Int) → Int
  | q :: primes, d :: digits => d + q * evaluate primes digits
  | _, _ => 0

/-- The residues of each coefficient, one for each prime. -/
def Poly.columns (p : Poly) : List (List Nat) :=
  p.channels.foldr (fun c rest => List.zipWith (· :: ·) c rest)
    (List.replicate p.basis.degree [])

/-- The centred coefficients, exactly. -/
def Poly.toInts (p : Poly) : List Int :=
  p.columns.map fun residues => evaluate p.basis.primes (digits p.basis residues)

/-! ## Floating-point coefficients -/

/-- The weights of the places as floating-point numbers: running products. -/
def floatWeights : (weight : Float) → (primes : List Nat) → List Float
  | _, [] => []
  | w, q :: primes => w :: floatWeights (w * Float.ofNat q) primes

/-- The weighted sum of digits in floating point, the highest digit first. -/
def floatSum (digits : List Int) (weights : List Float) : Float :=
  (digits.zip weights).foldr (fun dw sum => sum + Float.ofInt dw.1 * dw.2) 0

/-- The centred coefficients in floating point. -/
def Poly.toFloats (p : Poly) : List Float :=
  let places := Place.ofBasis p.basis
  let weights := floatWeights 1 p.basis.primes
  p.columns.map fun residues => floatSum (digitsAfter [] places residues) weights

end CipherFlow.Ring
