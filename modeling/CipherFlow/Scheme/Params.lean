import CipherFlow.Number.Decimal
import CipherFlow.Scheme.Coins

/-!
# Parameters

The parameters of the scheme and the conditions they have to meet.
-/

namespace CipherFlow

/-- The parameters of the scheme. The modulus chain has a base prime of about
`baseBits` binary digits and `levels` primes just below `2 ^ scaleBits`. -/
structure Params where
  ringDegree : Nat
  baseBits : Nat
  scaleBits : Nat
  levels : Nat
  errorStd : Binary64
  hammingWeight : Nat
deriving Repr

namespace Params

/-- The largest ring degree. -/
def maxRingDegree : Nat := Nat.pow 2 15

/-- The largest number of levels above the lowest. -/
def maxLevels : Nat := 32

/-- Small parameters, for trying things out; they protect nothing. -/
def toy : Params where
  ringDegree := 64
  baseBits := 55
  scaleBits := 40
  levels := 3
  errorStd := .ofFloat 3.2
  hammingWeight := 32

/-- The scale of a fresh encryption. -/
def defaultScale (p : Params) : Binary64 :=
  .ofNat (Nat.pow 2 p.scaleBits)

/-- The conditions on parameters that can fail. -/
inductive Problem where
  | ringDegree (degree : Nat)
  | levels (count : Nat)
  | scaleBits (bits : Nat)
  | baseBits (base scale : Nat)
  | errorStd (deviation : Float)
  | hammingWeight (weight degree : Nat)
deriving Repr

/-- The wording of a failed condition. -/
def Problem.message : Problem → String
  | .ringDegree degree =>
    s!"ring degree {degree} must be a power of two in 4..={maxRingDegree}"
  | .levels count => s!"levels {count} above {maxLevels}"
  | .scaleBits bits => s!"scale bits {bits} outside 8..=60"
  | .baseBits base scale =>
    s!"base bits {base} must exceed scale bits {scale} and be at most 60"
  | .errorStd deviation => s!"error std {Decimal.shortest deviation} must be positive"
  | .hammingWeight weight degree => s!"hamming weight {weight} outside 1..={degree}"

/-- The first condition that parameters fail, if any. -/
def problem? (p : Params) : Option Problem :=
  if p.ringDegree ≠ Nat.pow 2 p.ringDegree.log2 ∨ p.ringDegree < 4 ∨
      maxRingDegree < p.ringDegree then
    some (.ringDegree p.ringDegree)
  else if maxLevels < p.levels then some (.levels p.levels)
  else if p.scaleBits < 8 ∨ 60 < p.scaleBits then some (.scaleBits p.scaleBits)
  else if p.baseBits ≤ p.scaleBits ∨ 60 < p.baseBits then
    some (.baseBits p.baseBits p.scaleBits)
  else if !Binary64.isPositive p.errorStd then some (.errorStd p.errorStd)
  else if p.hammingWeight = 0 ∨ p.ringDegree < p.hammingWeight then
    some (.hammingWeight p.hammingWeight p.ringDegree)
  else none

/-- A choice of some of the parameters. -/
structure Choice where
  ringDegree : Option Nat := none
  baseBits : Option Nat := none
  scaleBits : Option Nat := none
  levels : Option Nat := none
  errorStd : Option Binary64 := none
  hammingWeight : Option Nat := none

/-- Completes a choice by the toy parameters; half of the secret's
coefficients are nonzero unless chosen otherwise. -/
def Choice.complete (c : Choice) : Params :=
  let ringDegree := c.ringDegree.getD toy.ringDegree
  { ringDegree
    baseBits := c.baseBits.getD toy.baseBits
    scaleBits := c.scaleBits.getD toy.scaleBits
    levels := c.levels.getD toy.levels
    errorStd := c.errorStd.getD toy.errorStd
    hammingWeight := c.hammingWeight.getD (ringDegree / 2) }

end Params

end CipherFlow
