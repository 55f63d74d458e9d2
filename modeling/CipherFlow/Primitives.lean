import CipherFlow.Scheme.Coins
import CipherFlow.Slots.Fourier

/-!
# Primitives

What the library takes from elsewhere: Fourier transforms of floating-point
numbers, a digest of lists of words, and a generator of random outcomes. It is
written, and proved right, for any of them.
-/

namespace CipherFlow

/-- Transforms, digest and generator that the library computes with. -/
class Primitives where
  transforms : Fourier.Transforms
  /-- The digest of a list of words, of which each is taken in as eight bytes. -/
  digest : List UInt64 → UInt64
  /-- The outcomes that the generator gives from a seed on. -/
  outcomes : UInt64 → Coins

/-- The coins of a seed. -/
def Coins.ofSeed [Primitives] (seed : Nat) : Coins :=
  Primitives.outcomes seed.toUInt64

end CipherFlow
