/-!
# Faults

An operation answers with a value or with an error of its own kind; both are
answers about the data it was given. A *fault* is neither: it says that the
call itself lay outside the operation's domain, so there is nothing to
answer. Error types that can meet such a call carry a constructor `fault`.
-/

namespace CipherFlow

/-- A call outside the domain of an operation. -/
inductive Fault where
  /-- A remainder by zero was asked for. -/
  | zeroModulus
  /-- The value is divisible by the modulus it was to be inverted under. -/
  | noInverse (value modulus : Nat)
  /-- A count that does not fit a machine word, or more entries than memory
  could ever hold. -/
  | sizeOverflow
  /-- A number above the modulus that it should be a residue of. -/
  | aboveModulus (value modulus : Nat)
  /-- A position at or past the end of a sequence. -/
  | outOfRange (index size : Nat)
  /-- Two sequences that have to be equally long are not. -/
  | lengthMismatch (left right : Nat)
  /-- Operands of an arithmetic operator over different bases. -/
  | basisMismatch
  /-- A standard deviation that is not finite and positive. -/
  | deviation
  /-- More nonzero entries than there are positions. -/
  | excessWeight (weight degree : Nat)
deriving Repr, DecidableEq

/-- The number of values of a machine word; counts stay below it. -/
def wordSize : Nat := Nat.pow 2 64

/-- Passes a count on if it fits a machine word. -/
def Fault.checkSize (n : Nat) : Except Fault Nat :=
  if n < wordSize then .ok n else .error .sizeOverflow

/-- Requires that a number of entries, each of a width in bytes, fits into
half of the addresses that a machine word can name. -/
def Fault.reserve (width count : Nat) : Except Fault Unit :=
  if width * count < Nat.pow 2 63 then .ok () else .error .sizeOverflow

/-- The entry of a list at an index, a fault when there is none. -/
def Fault.entry (xs : List α) (i : Nat) : Except Fault α :=
  match xs[i]? with
  | some x => .ok x
  | none => .error (.outOfRange i xs.length)

/-- The entry of an array at an index, a fault when there is none. -/
def Fault.entryOf (xs : Array α) (i : Nat) : Except Fault α :=
  match xs[i]? with
  | some x => .ok x
  | none => .error (.outOfRange i xs.size)

/-- An array holds the entries of the list that it was made of. -/
theorem Fault.entryOf_toArray (xs : List α) (i : Nat) :
    Fault.entryOf xs.toArray i = Fault.entry xs i := by
  simp [Fault.entryOf, Fault.entry]

end CipherFlow
