import CipherFlow.Primitives
import CipherFlow.Ring.Basis

/-!
# Level identifiers

Thirty-two bytes that name one level of a parameter set: four digests of the
degree and the primes of the level.
-/

namespace CipherFlow

/-- The identifier of a level: four words. -/
structure LevelId where
  first : UInt64
  second : UInt64
  third : UInt64
  fourth : UInt64
deriving Repr, DecidableEq

namespace LevelId

/-- The identifier of a degree and a list of primes. The four words are
digests of the same list, each headed by its own number. -/
def compute [Primitives] (degree : Nat) (primes : List Nat) : LevelId :=
  let digest (number : UInt64) : UInt64 :=
    Primitives.digest (number :: degree.toUInt64 :: primes.map Nat.toUInt64)
  ⟨digest 0, digest 1, digest 2, digest 3⟩

/-- The identifier of a basis. -/
def ofBasis [Primitives] (b : Ring.Basis) : LevelId :=
  compute b.degree b.primes

/-- The four words. -/
def words (id : LevelId) : List UInt64 :=
  [id.first, id.second, id.third, id.fourth]

/-- A word as sixteen hexadecimal digits. -/
def wordText (w : UInt64) : String :=
  let digits := Nat.toDigits 16 w.toNat
  String.ofList (List.replicate (16 - digits.length) '0' ++ digits)

/-- The identifier in hexadecimal. -/
def text (id : LevelId) : String :=
  String.join (id.words.map wordText)

end LevelId

end CipherFlow
