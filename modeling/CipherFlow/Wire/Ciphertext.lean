import CipherFlow.Element.Handle
import CipherFlow.Wire.Bytes

/-!
# Ciphertexts as bytes

A ciphertext is written as the identifier of its level, a flag byte, the
number of its components, the ring degree, the number of its primes, its
scale, and its residues: component by component, channel by channel. No
components stand for an element that is known to be zero. The packing is not
written; the reader supplies it.
-/

namespace CipherFlow.Wire

open CipherFlow.Ring (Basis Poly)

/-- The bytes before the residues. -/
def headerSize : Nat := 65

/-- The largest number of components that is read. -/
def maxComponents : Nat := 3

/-! ## Ring elements -/

/-- The residues of a ring element. -/
def polyBytes (p : Poly) : Bytes :=
  p.channels.flatMap fun c => c.flatMap wordBytes

/-- Reads a residue, which has to be below its prime. -/
def readResidue (q : Nat) : Reader Nat := do
  let value ← readWord
  if q ≤ value then throw (.coefficientOutOfRange value q)
  return value

/-- Reads a ring element of a basis. -/
def readPoly (basis : Basis) : Reader Poly := do
  let channels ← basis.primes.mapM fun q => readMany (readResidue q) basis.degree
  Poly.ofChannels basis channels

/-! ## Elements -/

/-- The components that are written for an element. -/
def components (h : Handle) : List Poly :=
  match h.state with
  | .zero .. => []
  | .encrypted ct => ct.components

/-- The number of bytes that are written for an element. -/
def handleSize (h : Handle) : Nat :=
  headerSize + 8 * (components h).foldr (fun p n => p.channelCount * p.degree + n) 0

/-- The bytes of an element. Its level has to be one of the context's. -/
def handleBytes (ctx : Context) (h : Handle) : Except Error Bytes := do
  let id ← ctx.levelId h.level
  return levelIdBytes id ++ natBytes 1 0 ++ wordBytes (components h).length ++
    wordBytes ctx.degree ++ wordBytes (h.level + 1) ++ floatBytes h.scale ++
    (components h).flatMap polyBytes

/-- Reads the fields before the residues: level, number of components and
scale. -/
def readHeader (ctx : Context) : Reader (Nat × Nat × Binary64) := do
  let id ← readLevelId
  match ctx.levelOf id with
  | none => throw (.unknownLevelId id)
  | some level =>
    let flag ← readByte
    if flag ≠ 0 then throw (.nttForm flag)
    let count ← readWord
    if count = 1 ∨ maxComponents < count then throw (.invalidComponentCount count)
    let degree ← readWord
    if degree ≠ ctx.degree then throw (.degreeMismatch ctx.degree degree)
    let chain ← readWord
    if chain ≠ level + 1 then throw (.chainLengthMismatch (level + 1) chain)
    let scale ← readFloat
    if !Binary64.isPositive scale then throw (.invalidScale scale)
    return (level, count, scale)

/-- Reads an element. -/
def readHandle (ctx : Context) (packing : Packing) : Reader Handle := do
  let (level, count, scale) ← readHeader ctx
  if count = 0 then return .zero packing scale level
  let basis ← ctx.basis level
  let components ← readMany (readPoly basis) count
  return .ofCiphertext ⟨components, scale, level⟩ packing

/-- Reads bytes that hold one element and nothing else. -/
def decodeHandle (ctx : Context) (packing : Packing) (bytes : Bytes) : Except Error Handle := do
  let (h, rest) ← (readHandle ctx packing).run bytes
  checkConsumed rest
  return h

/-! ## Lists of elements -/

/-- The bytes of elements, one after the other. -/
def handlesBytes (ctx : Context) (hs : List Handle) : Except Error Bytes := do
  let parts ← hs.mapM (handleBytes ctx)
  return parts.flatten

/-- Reads a number of elements. -/
def readHandles (ctx : Context) (packing : Packing) (count : Nat) : Reader (List Handle) :=
  readMany (readHandle ctx packing) count

end CipherFlow.Wire
