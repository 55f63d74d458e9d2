import CipherFlow.Scheme.Evaluator
import CipherFlow.Wire.Ciphertext

/-!
# Parameters and keys as bytes

Parameters are written field by field. Keys are headed by the identifier of
the top level, over which all their parts are.
-/

namespace CipherFlow.Wire

open CipherFlow.Ring (Basis Poly)

/-! ## Parameters -/

/-- The bytes of parameters. -/
def paramsBytes (p : Params) : Bytes :=
  wordBytes p.ringDegree ++ natBytes 4 p.baseBits ++ natBytes 4 p.scaleBits ++
    wordBytes p.levels ++ floatBytes p.errorStd ++ wordBytes p.hammingWeight

/-- Reads parameters, which have to meet their conditions. -/
def readParams : Reader Params := do
  let ringDegree ← readWord
  let baseBits ← readNat 4
  let scaleBits ← readNat 4
  let levels ← readWord
  let errorStd ← readFloat
  let hammingWeight ← readWord
  Scheme.checkParams ⟨ringDegree, baseBits, scaleBits, levels, errorStd, hammingWeight⟩

/-! ## Keys -/

/-- Reads the identifier of the top level. -/
def readTopLevel (ctx : Context) : Reader Basis := do
  let id ← readLevelId
  if ctx.levelOf id = some ctx.topLevel then return ctx.topBasis
  throw (.unknownLevelId id)

/-- The bytes of the identifier of the top level. -/
def topLevelBytes (ctx : Context) : Except Error Bytes := do
  let id ← ctx.levelId ctx.topLevel
  return levelIdBytes id

/-- The bytes of a pair of ring elements. -/
def pairBytes (d : Poly × Poly) : Bytes :=
  polyBytes d.1 ++ polyBytes d.2

/-- Reads a pair of ring elements. -/
def readPair (basis : Basis) : Reader (Poly × Poly) := do
  let b ← readPoly basis
  let a ← readPoly basis
  return (b, a)

/-- The bytes of a public key. -/
def publicKeyBytes (ctx : Context) (k : PublicKey) : Except Error Bytes := do
  let head ← topLevelBytes ctx
  return head ++ pairBytes (k.b, k.a)

/-- Reads a public key. -/
def readPublicKey (ctx : Context) : Reader PublicKey := do
  let basis ← readTopLevel ctx
  let (b, a) ← readPair basis
  PublicKey.ofParts b a

/-- The bytes of a relinearisation key: the number of its digits first. -/
def relinKeyBytes (ctx : Context) (k : RelinKey) : Except Error Bytes := do
  let head ← topLevelBytes ctx
  return head ++ wordBytes k.digits.length ++ k.digits.flatMap pairBytes

/-- Reads a relinearisation key, which has a digit for each prime. -/
def readRelinKey (ctx : Context) : Reader RelinKey := do
  let basis ← readTopLevel ctx
  let count ← readWord
  if count ≠ basis.channelCount then
    throw (.key (.digitCountMismatch basis.channelCount count))
  let digits ← readMany (readPair basis) count
  RelinKey.ofDigits digits

end CipherFlow.Wire
