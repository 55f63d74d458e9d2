import CipherFlow.Ring.Reconstruction
import CipherFlow.Scheme.Ciphertext
import CipherFlow.Scheme.LevelId

/-!
# Contexts

Parameters with the modulus chain found for them. Level `l` of the chain is
the basis of the first `l + 1` primes. A context encodes lanes into ring
elements of a level and decodes them again.
-/

namespace CipherFlow

open CipherFlow.Ring (Basis Poly)

/-- A modulus chain for given parameters, with the primitives that encode messages
and name the levels. -/
structure Context where
  params : Params
  primes : List Nat
  primitives : Primitives

namespace Context

/-- The context of parameters: the base prime first, then the rescaling
primes in falling order, none twice. -/
def ofParams [primitives : Primitives] (params : Params) : Except Scheme.Error Context := do
  let params ← Scheme.checkParams params
  let base ← Prime.listBelow params.baseBits 1 params.ringDegree []
  let rescaling ← Prime.listBelow params.scaleBits params.levels params.ringDegree base
  let basis ← Basis.ofPrimes params.ringDegree (base ++ rescaling)
  let _ ← Slots.Embedding.ofDegree params.ringDegree
  return ⟨params, basis.primes, primitives⟩

/-- The ring degree. -/
def degree (ctx : Context) : Nat :=
  ctx.params.ringDegree

/-- The encoder of the ring. -/
def embedding (ctx : Context) : Slots.Embedding :=
  ⟨ctx.params.ringDegree, ctx.primitives.transforms⟩

/-- The number of slots. -/
def slotCount (ctx : Context) : Nat :=
  ctx.embedding.slotCount

/-- The highest level. -/
def topLevel (ctx : Context) : Nat :=
  ctx.primes.length - 1

/-- The scale of a fresh encryption. -/
def defaultScale (ctx : Context) : Binary64 :=
  ctx.params.defaultScale

/-- The basis of all primes. -/
def topBasis (ctx : Context) : Basis :=
  ⟨ctx.degree, ctx.primes⟩

/-- The basis of the primes up to a level. -/
def basisAt (ctx : Context) (level : Nat) : Basis :=
  ⟨ctx.degree, ctx.primes.take (level + 1)⟩

/-- The basis of a level of the chain. -/
def basis (ctx : Context) (level : Nat) : Except Scheme.Error Basis :=
  if level < ctx.primes.length then .ok (ctx.basisAt level)
  else .error (.invalidLevel level ctx.topLevel)

/-- The identifier of a basis. -/
def idOf (ctx : Context) (b : Basis) : LevelId :=
  @LevelId.ofBasis ctx.primitives b

/-- The identifier of a level of the chain. -/
def levelId (ctx : Context) (level : Nat) : Except Scheme.Error LevelId := do
  let b ← ctx.basis level
  return ctx.idOf b

/-- The lowest level with an identifier. -/
def levelOf (ctx : Context) (id : LevelId) : Option Nat :=
  (List.range ctx.primes.length).find? fun l => ctx.idOf (ctx.basisAt l) = id

/-- The prime by which rescaling divides at a level. -/
def rescaleModulus (ctx : Context) (level : Nat) : Option Nat :=
  if level = 0 then none else ctx.primes[level]?

/-- Encodes lanes at a scale and a level. -/
def encode (ctx : Context) (lanes : List Float) (packing : Packing) (scale : Binary64)
    (level : Nat) : Except Scheme.Error Plaintext := do
  let basis ← ctx.basis level
  let slots ← Slots.pack packing lanes ctx.slotCount
  let coeffs ← ctx.embedding.encode slots scale
  return ⟨Poly.ofWide basis coeffs, scale, level⟩

/-- Reads lanes back from an encoded message. -/
def decode (ctx : Context) (p : Plaintext) (packing : Packing) (count : Nat) :
    Except Scheme.Error (List Float) := do
  let slots ← ctx.embedding.decode p.poly.toFloats p.scale
  return packing.lanesOf slots count

end Context

end CipherFlow
