import CipherFlow.Primitives
import CipherFlow.Scheme.LevelId

/-!
# Standard primitives

The primitives that programs run with: transforms by halving, the digest FNV-1a
with sixty-four bits, and a generator of seeded words. No other module depends on
how they compute, fixed inputs apart.
-/

namespace CipherFlow

/-! ## The digest -/

namespace LevelId

/-- Takes a byte into a digest. -/
def absorbByte (digest byte : UInt64) : UInt64 :=
  (digest ^^^ byte) * 0x100000001b3

/-- Takes a word into a digest, its lowest byte first. -/
def absorb (digest word : UInt64) : UInt64 :=
  ([0, 8, 16, 24, 32, 40, 48, 56] : List UInt64).foldl
    (fun d shift => absorbByte d ((word >>> shift) &&& 0xff)) digest

/-- The digest of a list of words. -/
def digest (words : List UInt64) : UInt64 :=
  words.foldl absorb 0xcbf29ce484222325

end LevelId

/-! ## The generator -/

namespace Coins

/-- Scrambles a word, so that neighbouring words give unrelated ones. -/
def scramble (z : UInt64) : UInt64 :=
  let z := (z ^^^ (z >>> 30)) * 0xbf58476d1ce4e5b9
  let z := (z ^^^ (z >>> 27)) * 0x94d049bb133111eb
  z ^^^ (z >>> 31)

/-- A word of the stream of a seed. -/
def word (seed : UInt64) (i : Nat) : Nat :=
  (scramble (seed + (i + 1).toUInt64 * 0x9e3779b97f4a7c15)).toNat

/-- A real number in the unit interval, never zero. -/
def unit (word : Nat) : Float :=
  Float.ofNat (word / Nat.pow 2 11 + 1) / Float.ofNat (Nat.pow 2 53)

/-- The tape of a seed. Two words make the outcome at a place: a number so large that
the bias of its remainders is negligible for bounds of one word, and a normally
distributed number by the polar method. -/
def seeded (seed : UInt64) : Coins where
  place := 0
  numbers i := word seed (2 * i) * wordSize + word seed (2 * i + 1)
  normals i :=
    let radius := Float.sqrt (-2 * Float.log (unit (word seed (2 * i))))
    radius * Float.cos (6.283185307179586 * unit (word seed (2 * i + 1)))

end Coins

/-- The primitives that programs run with. -/
@[reducible] def Primitives.standard : Primitives where
  transforms := Fourier.halving
  digest := LevelId.digest
  outcomes := Coins.seeded

end CipherFlow
